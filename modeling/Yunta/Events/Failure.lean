/-
  Why a node failed, as data, and what can change it.

  1. **Causes** — `Failure` has one constructor for each variant of the source, in its order.  A
     constructor carries what the functions below read and the identifiers a decision copies; the
     reports, tails and typed details that only a surface words are left out.

  2. **Remedies** — `Failure.remedies` reads a failure against the `Facts` its log holds and
     answers an `Outlook`: a wait for a reset, a menu of remedies, or why the node is stuck.

  Two variants nest a failure: `unchanged` repeats the one an earlier attempt ended with, and
  `childFailed` holds the one a child's log records.  A child whose log records none is the
  constructor `childFailedUnrecorded`, the source's `child_failure: None`.
-/
import Yunta.Events.Basics

set_option linter.unusedVariables false

namespace Yunta

/-! ## The options the engine itself builds -/

/-- The escalation options the engine itself builds and interprets. -/
inductive ReservedOption where
  | abort | retry | continueWork | promote | approve | grant | deny | continue_ | reject
  | accept | sendBack
  deriving DecidableEq

namespace ReservedOption

/-- Every reserved option, in the order the source lists them. -/
def all : List ReservedOption :=
  [abort, retry, continueWork, promote, approve, grant, deny, continue_, reject, accept, sendBack]

def asStr : ReservedOption → String
  | abort => "abort"
  | retry => "retry"
  | continueWork => "continue-work"
  | promote => "promote"
  | approve => "approve"
  | grant => "grant"
  | deny => "deny"
  | continue_ => "continue"
  | reject => "reject"
  | accept => "accept"
  | sendBack => "send-back"

/-- Whether choosing it runs the node again. -/
def runsAgain : ReservedOption → Bool
  | retry | continueWork | grant | deny | accept | sendBack => true
  | _ => false

/-- Whether a task it runs again picks its last attempt's work back up. -/
def continuesWork : ReservedOption → Bool
  | continueWork | grant => true
  | _ => false

/-- The reserved option an id spells, when it spells one. -/
def of (id : OptionId) : Option ReservedOption := all.find? fun option => option.asStr == id

/-- Every reserved option reads back from the id it is spelled by. -/
theorem of_asStr (o : ReservedOption) : of o.asStr = some o := by
  cases o <;> decide

end ReservedOption

/-! ## What a failure carries -/

/-- Why a session refused the request. -/
inductive RefusalCause where
  | final | authentication | invalidModel | unreachable | contextExhausted
  deriving DecidableEq

/-- A refusal kept whole: the adapter's message and its cause. -/
structure SessionRefusal where
  adapter : AdapterId
  cause : RefusalCause
  message : String
  deriving DecidableEq

/-- The account's limit: when it resets, if it said so, and the words it came with. -/
structure AccountLimit where
  resetsAt : Option Int
  message : String
  deriving DecidableEq

/-- Why a node's runner did not resolve to an adapter a run can use. -/
inductive RunnerRefusal where
  | unknown
  | noCandidate (tried : List AdapterId)
  deriving DecidableEq

/-- A task's request for scope beyond its own, owed a person's decision. -/
structure OwedScope where
  taskId : TaskId
  paths : List ScopeGlob
  reason : Option String := none
  deriving DecidableEq

/-- A task whose declared criterion no work of the plan can pass: the criterion's command, and the
    reason its session declared it with. -/
structure UnpassableTask where
  taskId : TaskId
  cmd : String
  why : String
  deriving DecidableEq

/-- A criterion's kind: a `guard` is green before the work, and the task keeps it green. -/
inductive CriterionType where
  | guard
  deriving DecidableEq

/-- A tasks document's criterion, frozen into `task_registered`. -/
structure Events.Criterion where
  cmd : String
  type : Option CriterionType := none
  deriving DecidableEq

/-- One criterion's outcome, as a check recorded it. -/
structure CriterionResult where
  cmd : String
  exitCode : Int
  type : Option CriterionType := none
  reused : Bool := false
  durationMs : Option Nat := none
  deriving DecidableEq

/-- What a criterion's first run told the engine before any work began. -/
inductive Surprise where
  | trivialCriterion (cmd : String)
  | brokenGuard (cmd : String)
  | unrunnable (cmd : String) (exitCode : Int)
  deriving DecidableEq

/-- What of the plan a task session departs from. -/
inductive DepartsFrom where
  | shape (name : String)
  | decision (id : String)
  | change (at_ : String)
  | criterion (cmd : String)
  | outcome
  deriving DecidableEq

/-- A task session declared that its work departs from the plan. -/
structure DeviationDeclaredPayload where
  taskId : TaskId
  departs : DepartsFrom
  planned : String
  instead : String
  why : String
  deriving DecidableEq

/-- A criterion of a task that its session declared no work of the plan can pass. -/
structure CriterionUnpassablePayload where
  taskId : TaskId
  criterion : String
  exitCode : Int
  why : String
  deriving DecidableEq

/-- Why a task stopped short of done. -/
inductive TaskCause where
  | preCheck (found : List Surprise)
  | unmet (attempts : Nat) (red : List CriterionResult) (outside : List PathBuf)
  | unrunnable (runs : List CriterionResult)
  | sessionRefused (refusal : SessionRefusal)
  | sessionLimited (limit : AccountLimit)
  | sessionDied (adapter : AdapterId)
  | carriedWorkNoLongerApplies (paths : List PathBuf)
  | commandDenied
  | scopeDecisionOwed
  | deviationOwed (deviations : List DeviationDeclaredPayload)
  | criterionUnpassable (declared : CriterionUnpassablePayload)
  deriving DecidableEq

/-- A task that stopped, and why. -/
structure TaskStop where
  taskId : TaskId
  cause : TaskCause
  deriving DecidableEq

/-- Why a node failed. -/
inductive Failure where
  | artifacts
  | sessionDied (adapter : AdapterId)
  | scopeViolated (outsideScope : List PathBuf)
  | scopeRequested (paths : List ScopeGlob) (reason : String)
  | scopeOwed (owed : List OwedScope)
  | unset (key : String)
  | unchanged (since : Nat) (failure : Failure)
  | pathsDenied (deniedPaths : List PathBuf)
  | exited (code : Int)
  | planUnpassable (unpassable : List UnpassableTask)
  | sessionRefused (refusal : SessionRefusal)
  | limit (limit : AccountLimit)
  | tasksStopped (stopped : List TaskStop)
  | red
  | childFailed (childRun : RunId) (childFailure : Failure)
  | childFailedUnrecorded (childRun : RunId)
  | frozenInput (input : String)
  | sessionNotStopped (report : String)
  | timedOut (afterMs : Nat)
  | tokenBudget (used max : Nat)
  | template
  | artifactUnreadable
  | artifactName (name : String)
  | mountUnreachable
  | gateChose (node : NodeId) (option : OptionId) (target : NodeId) (said : Option String)
  | testsAccepted (task : TaskId) (owedBy : NodeId)
  | childRefused (workflow : String)
  | nestedTooDeep (depth maxDepth : Nat) (workflow : String)
  | gateArtifactMissing (node : NodeId)
  | capabilityMissing (node : NodeId)
  | engineFailed
  | commandDenied
  | skillMissing (skill : String)
  | loopCapped (node : NodeId) (cap : Nat)
  | confinement
  | frozenRead
  | childrenFailed (children : List NodeId)
  | uncertain (node : NodeId)
  | rejected (by_ : Responder)
  | sentBack
  | findingsOpen (open_ : List FindingId)
  | interrupted
  | changesRequested (by_ : String) (reviewedSha : CommitSha) (comments : Nat)
  | pullRequestClosed (closed : Option String)
  | loopStalled (notReady : List TaskId)
  | noTasksDocument (tasksFor : NodeId)
  | runnerUnresolved (runner : RunnerName) (refusal : RunnerRefusal)
  | message (outcome : String)
  deriving DecidableEq

namespace Failure

/-- An attempt refused because nothing changed since attempt `since` failed with `failure`: a
    refusal of a refusal names the attempt that last ran. -/
def unchangedSince (since : Nat) : Failure → Failure
  | unchanged since failure => unchanged since failure
  | failure => unchanged since failure

/-- The paths the node wrote outside its scope; none for a failure that is not a violation
    of it. -/
def outsideScope : Failure → List PathBuf
  | scopeViolated outside => outside
  | unchanged _ failure => failure.outsideScope
  | _ => []

/-- Whether a wider scope is what this failure needs. -/
def wantsScope : Failure → Bool
  | scopeViolated outside => !outside.isEmpty
  | scopeRequested paths _ => !paths.isEmpty
  | scopeOwed owed => owed.any fun o => !o.paths.isEmpty
  | unchanged _ failure => failure.wantsScope
  | _ => false

end Failure

/-! ## Remedies -/

/-- What must change before a retry can end differently. -/
inductive Precondition where
  | treeChanged | outsideTreeChanged | credentialFixed | modelAvailable | limitLifted
  | serviceReachable
  | commandRunnable (cmd : String)
  | capLifted
  deriving DecidableEq

/-- One option a failure's menu offers, with the input it waits for. -/
structure Remedy where
  option : ReservedOption
  precondition : Option Precondition
  deriving DecidableEq

/-- Why a failure offers no remedy. -/
inductive Stuck where
  | frozenConfig | frozenInput | projectDenies | noGrant | treeUnchanged | owed | final
  | criteriaWrong
  deriving DecidableEq

/-- What a failure's menu can do about it. -/
inductive Outlook where
  | waitUntil (at_ : Int)
  | choose (remedies : List Remedy)
  | stuck (reason : Stuck)
  deriving DecidableEq

/-- What the log holds beside the failure: its clock, the node's tasks, grants and tree. -/
structure Facts where
  failedAt : Int
  continuable : Bool
  mayGrant : Bool
  treeMoved : Bool
  deriving DecidableEq

/-- The one remedy a retry waiting for `precondition` is. -/
def retryRemedy (precondition : Precondition) : Remedy := ⟨.retry, some precondition⟩

/-- The outlook of one retry waiting for `precondition`. -/
def retry (precondition : Precondition) : Outlook := .choose [retryRemedy precondition]

/-- A retry that waits for something outside the run's tree to change. -/
def outside : Outlook := retry .outsideTreeChanged

def runnerOutlook : RunnerRefusal → Outlook
  | .unknown => .stuck .frozenConfig
  | .noCandidate _ => outside

/-- What a failure that judges the run's tree leaves open. -/
def treeOutlook (facts : Facts) : Outlook :=
  if facts.treeMoved then retry .treeChanged else .stuck .treeUnchanged

/-- What a request for scope leaves open: a grant when the run may give one. -/
def scopeOutlook (facts : Facts) : Outlook :=
  if facts.mayGrant then .choose [⟨.grant, none⟩] else .stuck .noGrant

def exitedPrecondition (facts : Facts) : Precondition :=
  if facts.treeMoved then .treeChanged else .outsideTreeChanged

/-- The answers a person gives an owed scope request: a grant when the run may give one, and a
    denial, which always stays open. -/
def owedScopeOutlook (facts : Facts) : Outlook :=
  .choose ((if facts.mayGrant then [⟨.grant, none⟩] else []) ++ [⟨.deny, none⟩])

def causeOutlook : RefusalCause → Outlook
  | .authentication => retry .credentialFixed
  | .invalidModel => retry .modelAvailable
  | .unreachable => retry .serviceReachable
  | .final | .contextExhausted => .stuck .final

/-- A limit whose reset lies after the failure waits for it; any other waits for the service to
    accept requests again. -/
def limitOutlook (limit : AccountLimit) (facts : Facts) : Outlook :=
  match limit.resetsAt with
  | some at_ => if facts.failedAt < at_ then .waitUntil at_ else retry .limitLifted
  | none => retry .limitLifted

/-- `remedies.push(remedy)` unless the menu already lists it. -/
def pushRemedy (remedies : List Remedy) (remedy : Remedy) : List Remedy :=
  if remedy ∈ remedies then remedies else remedies ++ [remedy]

/-- The loop of `pre_check_outlook`: the remedies so far and whether a guard was red, or `none`
    once a criterion passes before any work. -/
def preCheckScan : List Surprise → List Remedy × Bool → Option (List Remedy × Bool)
  | [], acc => some acc
  | .trivialCriterion _ :: _, _ => none
  | .unrunnable cmd _ :: rest, (remedies, guardRed) =>
    preCheckScan rest (pushRemedy remedies (retryRemedy (.commandRunnable cmd)), guardRed)
  | .brokenGuard _ :: rest, (remedies, _) => preCheckScan rest (remedies, true)

/-- What a pre-check that found criteria wrong leaves open. -/
def preCheckOutlook (found : List Surprise) (facts : Facts) : Outlook :=
  match preCheckScan found ([], false) with
  | none => .stuck .criteriaWrong
  | some (remedies, guardRed) =>
    .choose (if guardRed then remedies ++ [retryRemedy (exitedPrecondition facts)] else remedies)

/-- What one task's stop leaves open, read from its cause and the facts. -/
def stopOutlook (facts : Facts) : TaskCause → Outlook
  | .deviationOwed _ => .choose [⟨.accept, none⟩, ⟨.sendBack, none⟩]
  | .scopeDecisionOwed => .stuck .owed
  | .preCheck found => preCheckOutlook found facts
  | .criterionUnpassable _ => .stuck .criteriaWrong
  | .commandDenied => .stuck .projectDenies
  | .unrunnable (run :: _) => retry (.commandRunnable run.cmd)
  | .unrunnable [] => outside
  | .sessionRefused refusal => causeOutlook refusal.cause
  | .sessionLimited limit => limitOutlook limit facts
  | .sessionDied _ => outside
  | .unmet .. => treeOutlook facts
  | .carriedWorkNoLongerApplies _ => treeOutlook facts

/-- Whether the loop's work can go on from where its tasks stopped. -/
def continuable (stopped : List TaskStop) (facts : Facts) : Bool :=
  let blocked := stopped.any fun stop =>
    match stop.cause with
    | .unrunnable _ | .preCheck _ | .commandDenied => true
    | _ => false
  let carried := stopped.any fun stop =>
    match stop.cause with
    | .carriedWorkNoLongerApplies _ => true
    | _ => false
  facts.continuable && !blocked && (facts.treeMoved || !carried)

/-- What the loop over a failure's stops gathers: the menu, the first reason to be stuck, and
    the latest reset a stop waits for. -/
structure StopScan where
  remedies : List Remedy
  stuck : Option Stuck
  wait : Option Int

def StopScan.step (facts : Facts) (scan : StopScan) (stop : TaskStop) : StopScan :=
  match stopOutlook facts stop.cause with
  | .choose found => { scan with remedies := found.foldl pushRemedy scan.remedies }
  | .stuck reason => { scan with stuck := scan.stuck <|> some reason }
  | .waitUntil at_ =>
    { scan with wait := some (match scan.wait with | none => at_ | some latest => max latest at_) }

/-- The outlook of a loop whose tasks stopped: a wait takes precedence, then the menu, and only
    a loop no stop offers any remedy for is stuck. -/
def stoppedOutlook (stopped : List TaskStop) (facts : Facts) : Outlook :=
  let start : StopScan :=
    ⟨if continuable stopped facts then [⟨.continueWork, none⟩] else [], none, none⟩
  let scan := stopped.foldl (StopScan.step facts) start
  match scan.wait with
  | some at_ => .waitUntil at_
  | none =>
    match scan.remedies, scan.stuck with
    | [], some reason => .stuck reason
    | [], none => outside
    | remedies, _ => .choose remedies

namespace Failure

/-- What can change this failure.  Pure over the failure and `facts`, which come from the
    log. -/
def remedies (facts : Facts) : Failure → Outlook
  | unset _ | template | artifactName _ | nestedTooDeep .. | gateArtifactMissing _
  | capabilityMissing _ | skillMissing _ | childRefused _ | confinement | frozenRead =>
    .stuck .frozenConfig
  | frozenInput _ => .stuck .frozenInput
  | pathsDenied _ | commandDenied => .stuck .projectDenies
  | planUnpassable _ => .stuck .criteriaWrong
  | gateChose .. | testsAccepted .. => .stuck .final
  | loopCapped .. => retry .capLifted
  | scopeOwed _ => owedScopeOutlook facts
  | sessionRefused refusal => causeOutlook refusal.cause
  | limit l => limitOutlook l facts
  | tasksStopped stopped => stoppedOutlook stopped facts
  | red | artifacts => treeOutlook facts
  | unchanged _ failure =>
    -- an unpassable plan is the answer whatever the tree did; otherwise the tree decides
    match failure with
    | planUnpassable _ => .stuck .criteriaWrong
    | inner => if facts.treeMoved then inner.remedies facts else .stuck .treeUnchanged
  | scopeViolated _ | scopeRequested .. => scopeOutlook facts
  | exited _ => retry (exitedPrecondition facts)
  | runnerUnresolved _ refusal => runnerOutlook refusal
  | childFailed _ child => child.remedies facts
  | _ => outside

end Failure

end Yunta
