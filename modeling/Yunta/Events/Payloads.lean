/-
  Every event kind the engine writes, each declared by the domain it happens to.

  1. **Payloads** — one structure for each kind that carries data a ledger, the clock, the
     refusals or the scheduler reads.  A field no function of the model reads is left out; a kind
     with nothing left is a constructor alone.

  2. **Domains** — nine enumerations, one for each domain, and `EventPayload` over them.
     `EventPayload.kindName` is the registry's row: the persisted `kind` of each.

  3. **Bodies** — `EventBody` is a payload this binary knows, or a kind it does not, kept by name.
     `StoredEvent` is the body in its envelope.
-/
import Yunta.Events.Failure

set_option linter.unusedVariables false

namespace Yunta

/-! ## The run -/

inductive TerminalState where
  | done | failed | cancelled | promoted
  deriving DecidableEq

/-- What a menu asks a person, as far as the run reads it back. -/
inductive Menu where
  | gate (assignee : String) (node : Option NodeId)
  | failure (attempt : Nat) (failure : Failure) (remedies : List Remedy) (stuck : Option Stuck)
  | departure
  | scope
  | budget (cap spent : Nat)
  | loopCap (cap ran : Nat)
  | console
  | published (url : String) (folder : Option String)
  deriving DecidableEq

namespace Menu

/-- Whether a resolution of this question answers a task, and not the node. -/
def answersATask : Menu → Bool
  | scope | departure => true
  | _ => false

/-- The gate an author's question is about. -/
def gateNode : Option Menu → Option NodeId
  | some (gate _ node) => node
  | _ => none

end Menu

/-- Why a run is parked, as a fact rather than a sentence. -/
inductive PauseReason where
  | escalation (menu : Option Menu)
  | cancelled
  | cancelledAfterCrash
  | budgetExhausted (spent cap : Nat)
  | noRoom (available need keepFree : Nat)
  | loopOverrun (node : NodeId) (cap : Nat)
  | externalGate (url : String)
  | uncertainOrphans (nodes : List NodeId)
  | nodeFailed (node : NodeId) (failure : Failure)
  | awaitingReset (node : NodeId) (at_ : Int)
  | blocked (node : NodeId) (on : List NodeId)
  | gateAborted (node : NodeId) (freeText : Option String)
  | pullRequestClosed (node : NodeId) (url : String)
  | childPaused (node : NodeId) (run : RunId) (child : PauseReason)
  | questions (node : NodeId) (pending : List QuestionId)
  | answersRefused (node : NodeId)
  | recorded (sentence : String)
  deriving DecidableEq

namespace PauseReason

/-- The node a limit's reset holds the run for, and the moment it resumes at by itself. -/
def resetWait : PauseReason → Option (NodeId × Int)
  | awaitingReset node at_ => some (node, at_)
  | _ => none

/-- The gate a run parked on this pause waits on, when the pause names one. -/
def gate : PauseReason → Option NodeId
  | escalation menu => Menu.gateNode menu
  | _ => none

/-- Whether a person stopped the run: nobody owes an answer; a resume continues it. -/
def byAPerson : PauseReason → Bool
  | cancelled | cancelledAfterCrash | gateAborted .. | pullRequestClosed .. => true
  | childPaused _ _ child => child.byAPerson
  | _ => false

/-- Whether this pause waits on a person's answer. -/
def waitsOnAPerson : PauseReason → Bool
  | recorded _ => false
  | childPaused _ _ child => child.waitsOnAPerson
  | reason => !reason.byAPerson && reason.resetWait.isNone

end PauseReason

structure ExecutionEnvironment where
  shell : String
  path : List String
  deriving DecidableEq

structure RunCreatedPayload where
  manifestHash : ContentHash
  checkout : Option PathBuf := none
  mode : ModeName := ""
  environment : Option ExecutionEnvironment := none
  /-- The top-level nodes the run leaves out for lack of config. -/
  leftOut : List NodeId := []
  opensOnBase : Bool := false
  deriving DecidableEq

structure PromotionCause where
  node : NodeId
  goto : NodeId
  failure : Option Failure
  deriving DecidableEq

structure PromotionSignaledPayload where
  cause : Option PromotionCause
  suggestedMode : ModeName
  deriving DecidableEq

structure RunPausedPayload where
  pause : PauseReason
  deriving DecidableEq

inductive OnInterrupt where
  | restartNode | resumeSession | failIfUncertain
  deriving DecidableEq

structure ResumePolicy where
  node : NodeId
  onInterrupt : OnInterrupt
  deriving DecidableEq

structure RunResumedPayload where
  policies : List ResumePolicy := []
  environment : Option ExecutionEnvironment := none
  checkout : Option PathBuf := none
  tree : Option TreeId := none
  deriving DecidableEq

structure RunMovedPayload where
  checkout : PathBuf
  deriving DecidableEq

/-- What a closed run reports about its spend.  The cost per verified task is a float a surface
    shows, and is left out. -/
structure RunMetrics where
  tokens : TokenUsage
  deriving DecidableEq

structure RunFinishedPayload where
  terminalState : TerminalState
  metrics : RunMetrics
  closedBy : Option Responder := none
  deriving DecidableEq

structure BaselineResults where
  exitCode : Int
  summary : String
  deriving DecidableEq

/-- Whether the run took its measurement or was born holding it. -/
inductive BaselineOrigin where
  | measured
  | inherited (run : RunId)
  deriving DecidableEq

structure BaselineCapturedPayload where
  command : String
  results : BaselineResults
  hash : ContentHash
  origin : BaselineOrigin := .measured
  tree : Option TreeId := none
  durationMs : Option Nat := none
  deriving DecidableEq

structure BaselineHeldPayload where
  name : CommandName
  command : String
  results : BaselineResults
  origin : BaselineOrigin := .measured
  tree : Option TreeId := none
  durationMs : Option Nat := none
  deriving DecidableEq

structure HostSuspendedPayload where
  sleptMs : Nat
  deriving DecidableEq

structure ChangesCountedPayload where
  tree : TreeId
  files : Nat
  added : Nat
  removed : Nat
  deriving DecidableEq

/-- The run itself. -/
inductive RunEvent where
  | created (p : RunCreatedPayload)
  | promotionSignaled (p : PromotionSignaledPayload)
  | paused (p : RunPausedPayload)
  | resumed (p : RunResumedPayload)
  | moved (p : RunMovedPayload)
  | finished (p : RunFinishedPayload)
  | baselineCaptured (p : BaselineCapturedPayload)
  | baselineHeld (p : BaselineHeldPayload)
  | hostSuspended (p : HostSuspendedPayload)
  | changesCounted (p : ChangesCountedPayload)
  deriving DecidableEq

/-! ## Nodes -/

/-- What a node resolved to: a fact the engine checked, by its name, or a summary. -/
inductive NodeOutcome where
  | fact (name : String)
  | summary (text : String)
  deriving DecidableEq

structure RunnerResolvedPayload where
  runner : RunnerName
  /-- The candidate the node runs on. -/
  chosen : String
  /-- Every candidate passed over before it. -/
  discarded : List String
  deriving DecidableEq

structure NodeStartedPayload where
  attempt : Nat
  fromTree : Option TreeId := none
  runScope : Option (List ScopeGlob) := none
  deriving DecidableEq

inductive Phase where
  | pre | post
  deriving DecidableEq

structure CriteriaCheckedPayload where
  taskId : TaskId
  phase : Phase
  results : List CriterionResult
  deriving DecidableEq

structure NodeFinishedPayload where
  outcome : NodeOutcome := .summary ""
  tokensUsed : TokenUsage := {}
  tree : Option TreeId := none
  deriving DecidableEq

structure NodeFailedPayload where
  failure : Failure
  tokensUsed : TokenUsage := {}
  tree : Option TreeId := none
  deriving DecidableEq

/-- Which mechanism rerouted: a bounded retry, or a gate's choice. -/
inductive RerouteOrigin where
  | onFailure | gateChoice
  deriving DecidableEq

structure NodeReroutedPayload where
  toNode : NodeId
  cause : Failure
  attempt : Option Nat := none
  maxReroutes : Option Nat := none
  origin : RerouteOrigin := .onFailure
  deriving DecidableEq

/-- One node of the graph. -/
inductive NodeEvent where
  | runnerResolved (p : RunnerResolvedPayload)
  | started (p : NodeStartedPayload)
  | contextAssembled
  | criteriaChecked (p : CriteriaCheckedPayload)
  | scopeChecked
  | finished (p : NodeFinishedPayload)
  | failed (p : NodeFailedPayload)
  | hookExecuted
  | rerouted (p : NodeReroutedPayload)
  | pullRequestOpened
  deriving DecidableEq

/-! ## Sessions -/

structure AgentSessionOpenedPayload where
  sessionId : SessionId
  agent : Option String := none
  model : Option ModelName := none
  taskId : Option TaskId := none
  deriving DecidableEq

inductive AgentMessageType where
  | toolUse | usage | note
  deriving DecidableEq

structure AgentMessagePayload where
  messageType : AgentMessageType
  toolName : Option String := none
  inputTokens : Option UInt64 := none
  outputTokens : Option UInt64 := none
  cachedInputTokens : Option UInt64 := none
  deriving DecidableEq

structure CapabilityDegradedPayload where
  capability : String
  adapter : AdapterId
  policy : String
  deriving DecidableEq

structure WriteRefusedPayload where
  sessionId : SessionId
  /-- The digest of what the write would have touched. -/
  target : ContentHash
  deriving DecidableEq

structure StopRefusedPayload where
  sessionId : SessionId
  state : ContentHash
  deriving DecidableEq

structure WriteFormattedPayload where
  sessionId : SessionId
  durationMs : Nat
  deriving DecidableEq

structure RailSummaryPayload where
  sessionId : SessionId
  model : Option ModelName
  deriving DecidableEq

structure RunToolFailedPayload where
  sessionId : SessionId
  tool : String
  cause : String
  deriving DecidableEq

/-- An agent session. -/
inductive SessionEvent where
  | opened (p : AgentSessionOpenedPayload)
  | message (p : AgentMessagePayload)
  | capabilityDegraded (p : CapabilityDegradedPayload)
  | writeRefused (p : WriteRefusedPayload)
  | stopRefused (p : StopRefusedPayload)
  | writeFormatted (p : WriteFormattedPayload)
  | railFailed
  | railSummary (p : RailSummaryPayload)
  | runToolFailed (p : RunToolFailedPayload)
  | runToolRefused
  | serviceUnreachable
  | serviceReachable
  | bestEffortFailed
  deriving DecidableEq

/-! ## Tasks -/

/-- Where a task of the run stands. -/
inductive TaskStatus where
  | pending | ready | running | done | blocked | failed
  deriving DecidableEq

structure TaskRegisteredPayload where
  taskId : TaskId
  criteria : List Events.Criterion := []
  scope : List ScopeGlob := []
  dependsOn : List TaskId := []
  deriving DecidableEq

structure TaskStatusChangedPayload where
  taskId : TaskId
  newStatus : TaskStatus
  causedBy : Nat
  commit : Option CommitSha := none
  leftWork : Option CommitSha := none
  resumes : Option SessionId := none
  stop : Option TaskCause := none
  deriving DecidableEq

/-- A move that says nothing but where the task went, and what justifies it. -/
def TaskStatusChangedPayload.to (task : TaskId) (status : TaskStatus) (causedBy : Nat) :
    TaskStatusChangedPayload where
  taskId := task
  newStatus := status
  causedBy

/-- A blocked task reopened to continue from the work at `work`. -/
def TaskStatusChangedPayload.continuing (task : TaskId) (causedBy : Nat) (work : CommitSha) :
    TaskStatusChangedPayload where
  taskId := task
  newStatus := .pending
  causedBy
  leftWork := some work

/-- A blocked task reopened, after the answer to the scope its session asked for, to resume that
    session on the work at `work`. -/
def TaskStatusChangedPayload.resuming (task : TaskId) (causedBy : Nat) (work : CommitSha)
    (session : SessionId) : TaskStatusChangedPayload where
  taskId := task
  newStatus := .pending
  causedBy
  leftWork := some work
  resumes := some session

/-- A task done, and the commit its work landed at. -/
def TaskStatusChangedPayload.done (task : TaskId) (causedBy : Nat) (commit : CommitSha) :
    TaskStatusChangedPayload where
  taskId := task
  newStatus := .done
  causedBy
  commit := some commit

structure TaskCheckStartedPayload where
  taskId : TaskId
  deriving DecidableEq

structure TaskCheckAnsweredPayload where
  taskId : TaskId
  results : List CriterionResult := []
  deriving DecidableEq

structure DeviationResolvedPayload where
  taskId : TaskId
  accepted : Bool
  said : Option String := none
  respecifiedBy : Option NodeId := none
  deriving DecidableEq

structure ShapesReadPayload where
  plan : ContentHash
  at_ : CommitSha
  deriving DecidableEq

/-- The tasks document, as a run works it. -/
inductive TaskEvent where
  | registered (p : TaskRegisteredPayload)
  | statusChanged (p : TaskStatusChangedPayload)
  | checkStarted (p : TaskCheckStartedPayload)
  | checkAnswered (p : TaskCheckAnsweredPayload)
  | deviationDeclared (p : DeviationDeclaredPayload)
  | deviationResolved (p : DeviationResolvedPayload)
  | criterionDeclaredUnpassable (p : CriterionUnpassablePayload)
  | shapesRead (p : ShapesReadPayload)
  deriving DecidableEq

/-! ## Scope -/

/-- Who answered a scope request. -/
inductive Decider where
  | rule
  | person (id : Responder)
  | evidence (criterion : String)
  deriving DecidableEq

structure ScopeExpansionGrantedPayload where
  taskId : Option TaskId
  decidedBy : Decider
  paths : List ScopeGlob
  deriving DecidableEq

structure ScopeExpansionDeniedPayload where
  taskId : Option TaskId
  decidedBy : Decider
  /-- Why the request was denied, in the one sentence it reads as. -/
  why : Option String := none
  deriving DecidableEq

structure ScopeDerivedPayload where
  taskId : TaskId
  paths : List ScopeGlob
  deriving DecidableEq

/-- A node asking to write outside the scope it declared, and the answer. -/
inductive ScopeEvent where
  | requested
  | granted (p : ScopeExpansionGrantedPayload)
  | denied (p : ScopeExpansionDeniedPayload)
  | derived (p : ScopeDerivedPayload)
  | withdrawn
  deriving DecidableEq

/-! ## Findings -/

inductive FindingSeverity where
  | blocking | major | minor | note
  deriving DecidableEq

structure Finding where
  id : FindingId
  severity : FindingSeverity
  /-- The session's words, or the engine's cause. -/
  complaint : String
  location : String
  deriving DecidableEq

inductive FindingAnswer where
  | fixed | declined
  deriving DecidableEq

structure FindingWithdrawnPayload where
  id : FindingId
  reason : String
  deriving DecidableEq

structure FindingAnsweredPayload where
  node : NodeId
  id : FindingId
  answer : FindingAnswer
  why : String
  deriving DecidableEq

structure FindingProvedPayload where
  node : NodeId
  id : FindingId
  result : CriterionResult
  deriving DecidableEq

structure FindingSettledPayload where
  node : Option NodeId
  id : FindingId
  deriving DecidableEq

/-- What a session reported about work that is not its own to fix. -/
inductive FindingEvent where
  | posted (finding : Finding)
  | updated (finding : Finding)
  | withdrawn (p : FindingWithdrawnPayload)
  | refused
  | answered (p : FindingAnsweredPayload)
  | proved (p : FindingProvedPayload)
  | settled (p : FindingSettledPayload)
  deriving DecidableEq

/-! ## Artifacts -/

/-- The kinds of document the engine reads, in the order they compare. -/
inductive ArtifactKind where
  | tasks | findings | questions | answers | spec
  deriving DecidableEq, Ord

/-- What names an artifact of a run: its kind when the engine reads it, else its name. -/
inductive ArtifactId where
  | interpreted (kind : ArtifactKind)
  | named (name : String)
  deriving DecidableEq

/-- How an artifact reached the store; `legacy` is an older log's. -/
inductive ArtifactOrigin where
  | submitted | ingested | derived | answered
  | input (name : String)
  | inherited (run : RunId) (producer : Option NodeId)
  | legacy
  deriving DecidableEq

structure ArtifactWrittenPayload where
  /-- The path's components. -/
  path : List String
  contentHash : ContentHash
  artifactKind : Option ArtifactKind
  deriving DecidableEq

/-- What the engine answered a submission: a refusal lists the code of each problem. -/
inductive SubmissionOutcome where
  | accepted (contentHash : ContentHash)
  | refused (codes : List String)
  deriving DecidableEq

structure ArtifactSubmittedPayload where
  artifactKind : ArtifactKind
  outcome : SubmissionOutcome
  deriving DecidableEq

structure ArtifactAcceptedPayload where
  artifact : ArtifactId
  contentHash : ContentHash
  origin : ArtifactOrigin
  deriving DecidableEq

/-- What a run holds. -/
inductive ArtifactEvent where
  | written (p : ArtifactWrittenPayload)
  | submitted (p : ArtifactSubmittedPayload)
  | accepted (p : ArtifactAcceptedPayload)
  deriving DecidableEq

/-! ## Gates -/

structure GateWaitingPayload where
  externalRef : Option String := none
  menu : Option Menu := none
  deriving DecidableEq

structure HumanChoice where
  option : OptionId
  by_ : Responder
  freeText : Option String := none
  deriving DecidableEq

inductive GateResolvedPayload where
  | chosen (choice : HumanChoice)
  | approved (by_ : Responder) (sha : CommitSha)
  | changesRequested (by_ : Responder)
  | closed
  | unrecognized
  deriving DecidableEq

structure QuestionsAskedPayload where
  questions : List QuestionId
  tokensUsed : TokenUsage := {}
  deriving DecidableEq

structure QuestionsAnsweredPayload where
  answersHash : ContentHash := ""
  responder : Option Responder := none
  deriving DecidableEq

/-- A decision a person makes. -/
inductive GateEvent where
  | waiting (p : GateWaitingPayload)
  | resolved (p : GateResolvedPayload)
  | questionsAsked (p : QuestionsAskedPayload)
  | questionsAnswered (p : QuestionsAnsweredPayload)
  | askingOpened
  deriving DecidableEq

/-! ## Children -/

structure ChildRunCreatedPayload where
  childRunId : RunId
  childWorkflowHash : ContentHash
  deriving DecidableEq

structure ChildRunFinishedPayload where
  childRunId : RunId
  childWorkflowHash : ContentHash
  terminalState : TerminalState
  tokens : TokenUsage
  deriving DecidableEq

structure LoopIterationPayload where
  iteration : Nat
  untilResult : Bool := false
  deriving DecidableEq

/-- A run this run started and how it closed, and the iterations of a loop. -/
inductive ChildEvent where
  | loopIteration (p : LoopIterationPayload)
  | created (p : ChildRunCreatedPayload)
  | finished (p : ChildRunFinishedPayload)
  deriving DecidableEq

/-! ## Bodies and envelopes -/

/-- What happened, in the terms of the domain it happened to. -/
inductive EventPayload where
  | run (e : RunEvent)
  | node (e : NodeEvent)
  | session (e : SessionEvent)
  | tasks (e : TaskEvent)
  | scope (e : ScopeEvent)
  | findings (e : FindingEvent)
  | artifacts (e : ArtifactEvent)
  | gates (e : GateEvent)
  | children (e : ChildEvent)
  deriving DecidableEq

/-- The persisted `kind` string: what storage writes to its `kind` column. -/
def EventPayload.kindName : EventPayload → String
  | run (.created _) => "run_created"
  | run (.promotionSignaled _) => "promotion_signaled"
  | run (.paused _) => "run_paused"
  | run (.resumed _) => "run_resumed"
  | run (.moved _) => "run_moved"
  | run (.finished _) => "run_finished"
  | run (.baselineCaptured _) => "baseline_captured"
  | run (.baselineHeld _) => "baseline_held"
  | run (.hostSuspended _) => "host_suspended"
  | run (.changesCounted _) => "changes_counted"
  | node (.runnerResolved _) => "runner_resolved"
  | node (.started _) => "node_started"
  | node .contextAssembled => "context_assembled"
  | node (.criteriaChecked _) => "criteria_checked"
  | node .scopeChecked => "scope_checked"
  | node (.finished _) => "node_finished"
  | node (.failed _) => "node_failed"
  | node .hookExecuted => "hook_executed"
  | node (.rerouted _) => "node_rerouted"
  | node .pullRequestOpened => "pull_request_opened"
  | session (.opened _) => "agent_session_opened"
  | session (.message _) => "agent_message"
  | session (.capabilityDegraded _) => "capability_degraded"
  | session (.writeRefused _) => "write_refused"
  | session (.stopRefused _) => "stop_refused"
  | session (.writeFormatted _) => "write_formatted"
  | session .railFailed => "rail_failed"
  | session (.railSummary _) => "rail_summary"
  | session (.runToolFailed _) => "run_tool_failed"
  | session .runToolRefused => "run_tool_refused"
  | session .serviceUnreachable => "service_unreachable"
  | session .serviceReachable => "service_reachable"
  | session .bestEffortFailed => "best_effort_failed"
  | tasks (.registered _) => "task_registered"
  | tasks (.statusChanged _) => "task_status_changed"
  | tasks (.checkStarted _) => "task_check_started"
  | tasks (.checkAnswered _) => "task_check_answered"
  | tasks (.deviationDeclared _) => "deviation_declared"
  | tasks (.deviationResolved _) => "deviation_resolved"
  | tasks (.criterionDeclaredUnpassable _) => "criterion_declared_unpassable"
  | tasks (.shapesRead _) => "shapes_read"
  | scope .requested => "scope_expansion_requested"
  | scope (.granted _) => "scope_expansion_granted"
  | scope (.denied _) => "scope_expansion_denied"
  | scope (.derived _) => "scope_derived"
  | scope .withdrawn => "scope_expansion_withdrawn"
  | findings (.posted _) => "finding_posted"
  | findings (.updated _) => "finding_updated"
  | findings (.withdrawn _) => "finding_withdrawn"
  | findings .refused => "finding_refused"
  | findings (.answered _) => "finding_answered"
  | findings (.proved _) => "finding_proved"
  | findings (.settled _) => "finding_settled"
  | artifacts (.written _) => "artifact_written"
  | artifacts (.submitted _) => "artifact_submitted"
  | artifacts (.accepted _) => "artifact_accepted"
  | gates (.waiting _) => "gate_waiting"
  | gates (.resolved _) => "gate_resolved"
  | gates (.questionsAsked _) => "questions_asked"
  | gates (.questionsAnswered _) => "questions_answered"
  | gates .askingOpened => "asking_opened"
  | children (.loopIteration _) => "loop_iteration"
  | children (.created _) => "child_run_created"
  | children (.finished _) => "child_run_finished"

/-- Every kind is written at version 1. -/
def kindVersion : Nat := 1

/-- A stored event's content: a payload this binary knows, or a kind it does not. -/
inductive EventBody where
  | known (payload : EventPayload)
  | unknown (kind : String)
  deriving DecidableEq

def EventBody.kindName : EventBody → String
  | known payload => payload.kindName
  | unknown kind => kind

/-- One event as persisted and read back. -/
structure StoredEvent where
  runId : RunId := ""
  seq : Nat
  timestamp : Int
  nodeId : Option NodeId := none
  body : EventBody
  deriving DecidableEq

namespace StoredEvent

/-- The payload when this binary knows the event's kind. -/
def payload (event : StoredEvent) : Option EventPayload :=
  match event.body with
  | .known payload => some payload
  | .unknown _ => none

/-- The envelope of `event`. -/
def meta_ (event : StoredEvent) : EventMeta := ⟨event.seq, event.timestamp, event.nodeId⟩

@[simp] theorem meta_seq (event : StoredEvent) : event.meta_.seq = event.seq := rfl
@[simp] theorem meta_at (event : StoredEvent) : event.meta_.at_ = event.timestamp := rfl
@[simp] theorem meta_node (event : StoredEvent) : event.meta_.node = event.nodeId := rfl

end StoredEvent

end Yunta
