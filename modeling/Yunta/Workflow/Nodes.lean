/-
  A workflow as the scheduler reads it: its nodes, their kinds, and the policies that qualify them.

  A node's kind may nest nodes (`parallel`), so `NodeKind` is an inductive over nodes of its own
  kind; `iterNodes` walks every node of a workflow, a group before its children.
-/
import Yunta.Events.Payloads

set_option linter.unusedVariables false

namespace Yunta

/-! ## Kinds -/

/-- The checks the engine can evaluate by itself. -/
inductive CheckBuiltin where
  | baselineCompare | coverageGate
  | findingsGate (maxSeverity : FindingSeverity)
  deriving DecidableEq

/-- Whether the check's verdict is a function of the run's tree. -/
def CheckBuiltin.judgesTheTree : CheckBuiltin → Bool
  | baselineCompare | coverageGate => true
  | findingsGate _ => false

/-- How a reference names an artifact. -/
inductive ArtifactRefId where
  | kind (kind : ArtifactKind)
  | name (name : String)
  deriving DecidableEq

inductive NodePermissions where
  | readOnly | edit | full
  deriving DecidableEq

/-- `on_failure:`, where a failed node reroutes to and how many times. -/
structure OnFailure where
  goto : NodeId
  maxReroutes : Nat
  deriving DecidableEq

/-- What a node declares its work answerable for. -/
inductive NodeScope where
  | unscoped
  | globs (globs : List ScopeGlob)
  /-- The paths the run changed since its base. -/
  | run
  deriving DecidableEq

/-- Whether the node declares a scope: it gets a checkout of its own and its diff is audited. -/
def NodeScope.isDeclared (scope : NodeScope) : Bool := scope != .unscoped

/-- What a scope may reach before any run exists: for `run`, anything. -/
def NodeScope.overlapGlobs : NodeScope → List ScopeGlob
  | .unscoped => []
  | .globs written => written
  | .run => ["**"]

/-- A node, over the kinds it can be of. -/
structure NodeOf (κ : Type) where
  id : NodeId
  kind : κ
  dependsOn : List NodeId := []
  onFailure : Option OnFailure := none
  onInterrupt : Option OnInterrupt := none
  permissions : Option NodePermissions := none
  invariant : Bool := false
  scope : NodeScope := .unscoped

inductive NodeKind where
  | prompt | bash | loop
  | parallel (nodes : List (NodeOf NodeKind))
  | check (builtin : CheckBuiltin)
  | executor
  | gate (on : List (OptionId × NodeId)) (shows : List ArtifactRefId) (external : Bool)
  | workflow | pullRequest

abbrev Node := NodeOf NodeKind

structure Workflow where
  nodes : List Node

namespace NodeOf

/-- Whether this node's pass is a verdict on the run's tree. -/
def verifiesTheTree (node : Node) : Bool :=
  node.invariant &&
    match node.kind with
    | .bash => true
    | .check builtin => builtin.judgesTheTree
    | _ => false

/-- Whether this node's session may write under the checkout. -/
def writesWorktree (node : Node) : Bool := node.permissions != some .readOnly

/-- Whether a node's diff is audited, which gives it a checkout of its own. -/
def audits (node : Node) : Bool := !node.writesWorktree || node.scope.isDeclared

end NodeOf

/-- Whether a node's kind is `gate`: its resolution is a forge round-trip, not a session. -/
def isGate (node : Node) : Bool :=
  match node.kind with
  | .gate .. => true
  | _ => false

/-- Whether a gate node is published to a forge. -/
def isExternalGate (node : Node) : Bool :=
  match node.kind with
  | .gate _ _ external => external
  | _ => false

/-! ## Walks over nested nodes -/

mutual

/-- Whether a node reads the lineage's measurement. -/
def readsTheMeasurement : Node → Bool
  | ⟨_, kind, _, _, _, _, _, _⟩ => kindReadsTheMeasurement kind

def kindReadsTheMeasurement : NodeKind → Bool
  | .check .baselineCompare | .loop | .workflow => true
  | .gate _ shows _ => shows.contains (.kind .tasks)
  | .parallel nodes => anyReadsTheMeasurement nodes
  | _ => false

def anyReadsTheMeasurement : List Node → Bool
  | [] => false
  | node :: rest => readsTheMeasurement node || anyReadsTheMeasurement rest

end

mutual

/-- Whether running a node waits for the lineage's measurement: a loop starts beside it. -/
def waitsForTheMeasurement : Node → Bool
  | ⟨_, kind, _, _, _, _, _, _⟩ => kindWaitsForTheMeasurement kind

def kindWaitsForTheMeasurement : NodeKind → Bool
  | .loop => false
  | .parallel nodes => anyWaitsForTheMeasurement nodes
  | kind => kindReadsTheMeasurement kind

def anyWaitsForTheMeasurement : List Node → Bool
  | [] => false
  | node :: rest => waitsForTheMeasurement node || anyWaitsForTheMeasurement rest

end

mutual

/-- A node and every node nested in it, the node first. -/
def nodeAndNested : Node → List Node
  | ⟨id, kind, deps, onFailure, onInterrupt, permissions, invariant, scope⟩ =>
    ⟨id, kind, deps, onFailure, onInterrupt, permissions, invariant, scope⟩ :: kindNested kind

def kindNested : NodeKind → List Node
  | .parallel nodes => nodesAndNested nodes
  | _ => []

def nodesAndNested : List Node → List Node
  | [] => []
  | node :: rest => nodeAndNested node ++ nodesAndNested rest

end

/-- Every node of the workflow, a group before its children. -/
def Workflow.iterNodes (workflow : Workflow) : List Node := nodesAndNested workflow.nodes

end Yunta
