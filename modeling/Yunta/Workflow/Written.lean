/-
  A workflow as the rules that read its file see it: what each node is, waits on, produces and
  names, the modes that keep some of it, and the inputs a run is given.

  1. **The shape** — `Node` over its kinds, which nest nodes in a `parallel` group; `Workflow`.

  2. **Walks** — every node before those nested in it, all of them or those under some top-level
     ones; `mem_iterNodesUnder` says which these are.

  3. **What a node names** — the artifacts it reads (`artifactReads`), the nodes it reads from
     (`readSources`), and those it sends control to (`rerouteTargets`).

  4. **What a rule finds** — a fault, and where in the file it is.
-/
import Yunta.Workflow.Modes

set_option linter.unusedVariables false

namespace Yunta.Written

/-! ## The shape -/

/-- An artifact a node names, of the node it names it of: of the run's own where it names none. -/
structure ArtifactContextRef where
  node : Option NodeId
  id : ArtifactRefId
  deriving DecidableEq

/-- One `context:` source. -/
inductive ContextSpec where
  | artifact (artifact : ArtifactContextRef)
  | nodeOutput (node : NodeId)
  /-- Files, a command, a query, the run's events or tasks, knowledge: no node is named. -/
  | other
  deriving DecidableEq

/-- One `mounts:` entry, and the name the child holds it under. -/
structure MountSpec where
  node : NodeId
  id : ArtifactRefId
  rename : Option String
  deriving DecidableEq

/-- A command to run: a script written in the workflow, or one the project declares. -/
inductive RunCommand where
  | script (text : String)
  | project (name : CommandName)
  deriving DecidableEq

/-- The project's command this names, if it names one. -/
def RunCommand.projectName : RunCommand → Option CommandName
  | script _ => none
  | project name => some name

abbrev ExecutorName := String

/-- A node as authored, over the kinds it can be of.  A declared artifact is written as the identity
    it declares. -/
structure NodeOf (κ : Type) where
  id : NodeId
  kind : κ
  dependsOn : List NodeId := []
  scope : NodeScope := .unscoped
  runner : Option RunnerName := none
  runners : List RunnerName := []
  produces : List ArtifactId := []
  before : List RunCommand := []
  after : List RunCommand := []
  onFailure : Option OnFailure := none
  context : List ContextSpec := []
  invariant : Bool := false
  optional : Bool := false

inductive NodeKind where
  | prompt
  | bash (run : RunCommand)
  | loop
  | parallel (nodes : List (NodeOf NodeKind))
  | check (builtin : CheckBuiltin)
  | executor (executor : ExecutorName)
  | gate (on : List (OptionId × NodeId)) (shows : List ArtifactContextRef)
      (external : Option (List ArtifactId))
  | workflow (mounts : List MountSpec)
  | pullRequest

abbrev Node := NodeOf NodeKind

/-- What a mode keeps: every node, or the top-level ones it lists. -/
inductive ModeInclude where
  | all
  | nodes (ids : List NodeId)
  deriving DecidableEq

/-- One `inputs:` entry: a document of a kind, or a value. -/
inductive InputSpec where
  | document (kind : ArtifactKind)
  | value
  deriving DecidableEq

structure Workflow where
  nodes : List Node
  /-- In the order of their declaration, the promotion ladder. -/
  modes : Option (List (ModeName × ModeInclude)) := none
  inputs : List InputSpec := []

/-! ## Walks -/

mutual

/-- A node and every node nested in it, the node first. -/
def nodeAndNested : Node → List Node
  | ⟨id, kind, deps, scope, runner, runners, produces, before, after, onFailure, context,
      invariant, optional⟩ =>
    ⟨id, kind, deps, scope, runner, runners, produces, before, after, onFailure, context,
      invariant, optional⟩ :: kindNested kind

def kindNested : NodeKind → List Node
  | .parallel nodes => nodesAndNested nodes
  | _ => []

def nodesAndNested : List Node → List Node
  | [] => []
  | node :: rest => nodeAndNested node ++ nodesAndNested rest

end

theorem nodeAndNested_eq (node : Node) : nodeAndNested node = node :: kindNested node.kind := by
  cases node
  rfl

theorem mem_nodesAndNested {nodes : List Node} {node : Node} :
    node ∈ nodesAndNested nodes ↔ ∃ top ∈ nodes, node ∈ nodeAndNested top := by
  induction nodes with
  | nil => simp [nodesAndNested]
  | cons first rest ih =>
    rw [nodesAndNested, List.mem_append, ih]
    simp

theorem self_mem_nodeAndNested (node : Node) : node ∈ nodeAndNested node := by
  rw [nodeAndNested_eq]
  exact List.mem_cons_self

/-- The nodes a `parallel` group holds; none for a node of another kind. -/
def NodeKind.children : NodeKind → List Node
  | .parallel nodes => nodes
  | _ => []

mutual

/-- Every node of a list before those nested in it, each with the group it stands in. -/
def nodeWithGroup : Option Node → Node → List (Node × Option Node)
  | group, ⟨id, kind, deps, scope, runner, runners, produces, before, after, onFailure, context,
      invariant, optional⟩ =>
    let node : Node := ⟨id, kind, deps, scope, runner, runners, produces, before, after, onFailure,
      context, invariant, optional⟩
    (node, group) :: kindWithGroup node kind

def kindWithGroup : Node → NodeKind → List (Node × Option Node)
  | node, .parallel nodes => nodesWithGroup (some node) nodes
  | _, _ => []

def nodesWithGroup : Option Node → List Node → List (Node × Option Node)
  | _, [] => []
  | group, node :: rest => nodeWithGroup group node ++ nodesWithGroup group rest

end

namespace Workflow

/-- Every node of the workflow, a group before its children. -/
def iterNodes (workflow : Workflow) : List Node := nodesAndNested workflow.nodes

/-- Every node, each with the group it stands in: none for a top-level one. -/
def iterNodesWithGroup (workflow : Workflow) : List (Node × Option Node) :=
  nodesWithGroup none workflow.nodes

/-- `iterNodes` over the top-level nodes `tops` names; every one when it names none. -/
def iterNodesUnder (workflow : Workflow) (tops : Option (List NodeId)) : List Node :=
  nodesAndNested (workflow.nodes.filter fun node => isIncluded tops node.id)

/-- The top-level nodes that wait on `id`. -/
def dependents (workflow : Workflow) (id : NodeId) : List NodeId :=
  (workflow.nodes.filter fun node => node.dependsOn.contains id).map (·.id)

theorem mem_iterNodesUnder {workflow : Workflow} {tops : Option (List NodeId)} {node : Node} :
    node ∈ workflow.iterNodesUnder tops ↔
      ∃ top ∈ workflow.nodes, isIncluded tops top.id = true ∧ node ∈ nodeAndNested top := by
  unfold iterNodesUnder
  rw [mem_nodesAndNested]
  simp only [List.mem_filter, and_assoc]

end Workflow

/-! ## What a node names -/

/-- Where a node names an artifact. -/
inductive ReadSite where
  | context | mount | shows
  deriving DecidableEq

/-- The field the reference is written under. -/
def ReadSite.field : ReadSite → String
  | context => "context: artifact"
  | mount => "mounts"
  | shows => "shows"

/-- One artifact a node names: where, as which entry of that site's list, of which node, and
    which. -/
structure ArtifactRead where
  site : ReadSite
  entry : Nat
  node : Option NodeId
  id : ArtifactRefId
  deriving DecidableEq

/-- The reads among `context:` sources, the first of which is entry `entry`. -/
def contextReads : Nat → List ContextSpec → List ArtifactRead
  | _, [] => []
  | entry, .artifact artifact :: rest =>
    ⟨.context, entry, artifact.node, artifact.id⟩ :: contextReads (entry + 1) rest
  | entry, _ :: rest => contextReads (entry + 1) rest

/-- The reads a node's kind adds to those of its context. -/
def NodeKind.reads : NodeKind → List ArtifactRead
  | .workflow mounts =>
    mounts.mapIdx fun entry mount => ⟨.mount, entry, some mount.node, mount.id⟩
  | .gate _ shows _ => shows.mapIdx fun entry shown => ⟨.shows, entry, shown.node, shown.id⟩
  | _ => []

/-- Every artifact `node` names, in the order it names them.  A group's children name their own. -/
def artifactReads (node : Node) : List ArtifactRead :=
  contextReads 0 node.context ++ node.kind.reads

/-- The nodes whose captured output a node reads. -/
def outputSources (context : List ContextSpec) : List (String × NodeId) :=
  context.filterMap fun source =>
    match source with
    | .nodeOutput node => some ("context: node-output", node)
    | _ => none

/-- The nodes `node` itself reads from by name, each with the field it is named in. -/
def ownSources (node : Node) : List (String × NodeId) :=
  (artifactReads node).filterMap (fun read => read.node.map (read.site.field, ·)) ++
    outputSources node.context

/-- The nodes a node reads from by name, its children's included: a group is kept or left out
    whole. -/
def readSources (node : Node) : List (String × NodeId) := (nodeAndNested node).flatMap ownSources

/-- Where a node can send control: its reroute, and every option of a gate. -/
def rerouteTargets (node : Node) : List (String × NodeId) :=
  (node.onFailure.map (("on_failure.goto", ·.goto))).toList ++
    match node.kind with
    | .gate on _ _ => on.map fun option => ("on", option.2)
    | _ => []

/-- Whether this node hands a questions document over and waits on its answers. -/
def asks (node : Node) : Bool := node.produces.contains (.interpreted .questions)

/-! ## What a rule finds -/

/-- A step of the path to a place in the file. -/
inductive Step where
  | key (key : String)
  | index (index : Nat)
  deriving DecidableEq

inductive WorkflowFault where
  /-- An id written with the `@` only a fan-out may generate. -/
  | authoredFanOut
  | invariantInParallel (node group : NodeId)
  | duplicateNode
  | unknownReference (field : String) (target : NodeId) (nearest : Option NodeId)
  | overlappingParallelScope (node : NodeId) (glob : ScopeGlob) (other : NodeId)
      (otherGlob : ScopeGlob)
  | unknownModeNode (mode : ModeName) (node : NodeId)
  | invariantLeftOut (mode : ModeName)
  | rerouteLeftOut (field : String) (target : NodeId) (mode : ModeName)
  | sourceLeftOut (field : String) (source : NodeId) (mode : ModeName)
  | optionalInParallel (node group : NodeId)
  | reroutesToOptional (target : NodeId)
  | readsWhatMayGo (field : String) (source node : NodeId)
  deriving DecidableEq

/-- A fault about one node, the `index`-th the rule reads, and where in it the fault is. -/
structure Diagnostic where
  index : Nat
  node : NodeId
  fault : WorkflowFault
  at_ : List Step := []
  deriving DecidableEq

def about (index : Nat) (node : NodeId) (fault : WorkflowFault) : Diagnostic :=
  ⟨index, node, fault, []⟩

end Yunta.Written
