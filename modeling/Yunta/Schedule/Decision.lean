/-
  What the run does next, as the scheduler answers it, and the knobs every answer reads.

  `Policy` is what the run was frozen with.  What a path glob reaches is `globset`'s to say: the
  glob that selects one path exactly, and the protection a glob reaches, are the policy's functions.
-/
import Yunta.Events.Failure
import Yunta.Scope.Expansion
import Yunta.Workflow.Nodes

set_option linter.unusedVariables false

namespace Yunta

/-! ## Decisions -/

/-- What a run still owes of its lineage's measurement. -/
structure Owed where
  suite : Option String
  held : List (CommandName × String)
  deriving DecidableEq

def Owed.isEmpty (owed : Owed) : Bool := owed.suite.isNone && owed.held.isEmpty

/-- What the run does next. -/
inductive Decision where
  | measureBaseline (owed : Owed)
  /-- Independently-ready nodes to run at once, each under its attempt. -/
  | execute (batch : List (NodeId × Nat))
  | reroute (source goto : NodeId) (attempt maxReroutes : Nat) (cause : Failure)
  | pause (reason : PauseReason)
  | fail (node : NodeId) (failure : Failure)
  | gateExhaustedReroutes (node goto : NodeId) (maxReroutes : Nat) (cause : Failure)
  | escalateFailure (node : NodeId) (failure : Failure) (nextAttempt : Nat) (outlook : Outlook)
  | waitUntil (node : NodeId) (at_ : Int)
  | publishGate (node : NodeId)
  | pollGate (node : NodeId) (externalRef : String)
  | resolveInternalGate (node : NodeId)
  | askQuestions (node : NodeId)
  | finishAnswered (node : NodeId)
  | finish
  | broken (diagnostic : String)
  deriving DecidableEq

/-! ## The policy -/

inductive DefaultOnFailure where
  | pause | abort | continue_
  deriving DecidableEq

/-- What the run was frozen with. -/
structure Policy where
  maxParallelNodes : Nat
  onInterrupt : OnInterrupt := .restartNode
  onFailure : DefaultOnFailure := .pause
  /-- The nodes this run schedules; `none` when nothing narrows the graph. -/
  modeNodes : Option (List NodeId) := none
  baselineSuite : Option String := none
  baselineHeld : List (CommandName × String) := []
  /-- Whether the suite is measured in a checkout of its own while the run goes on. -/
  measuresAside : Bool := false
  mayPromote : Bool := false
  /-- Whether a person may widen a node's scope from the menu of a failure. -/
  grantsScope : Bool := false
  /-- The strictest protection that reaches a glob. -/
  reachedBy : ScopeGlob → Option Protection := fun _ => none
  /-- `ScopeGlob::exact`. -/
  exactGlob : PathBuf → Option ScopeGlob := some

/-! ## Grants -/

/-- The scope a node needs for its failure to stand: what its session asked for, or each path it
    wrote outside, exactly. -/
def Failure.scopeWanted (exactGlob : PathBuf → Option ScopeGlob) :
    Failure → Option (List ScopeGlob)
  | scopeRequested paths _ => some paths
  | scopeViolated outside => outside.mapM exactGlob
  | unchanged prior failure => (unchanged prior failure).outsideScope.mapM exactGlob
  | _ => some []

end Yunta
