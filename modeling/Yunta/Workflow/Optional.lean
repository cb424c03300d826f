/-
  `optional: true` — a node a project may lack what it needs to run, and what a run does without it.

  1. **What a node needs** — `ConfigKey.neededBy`, and which of it a config leaves unset.

  2. **What a run leaves out** — `leftOut`: each optional node that needs a key left unset, then, one
     at a time, each node only a left-out one leads to.  It is the least set closed under these two
     rules (`mem_leftOut`), so the order the nodes are declared in has no part in it.

  3. **Where optional may stand** — `mayGo`, the rule on the file.  A node no config leaves out
     reads by name from, and reroutes to, no node some config leaves out (`kept_sources`,
     `kept_targets`).

  4. **What leaving out leaves** — `leaves_whole_iff`: a run misses nothing it leaves out exactly
     when this holds of the nodes the rule passes over too, which may go themselves and stay.
-/
import Mathlib.Order.Bounds.Defs
import Yunta.Lib.Saturate
import Yunta.Workflow.Written

set_option linter.unusedVariables false

namespace Yunta.Written

/-! ## What a node needs -/

/-- Where a run works: a worktree of its own, or a person's checkout. -/
inductive Isolation where
  | worktree | none
  deriving DecidableEq

/-- What a node may need the config to declare. -/
inductive ConfigKey where
  | baselineSuite | coverage
  | executor (executor : ExecutorName)
  | runner
  | command (command : CommandName)
  | forge | runBranch
  deriving DecidableEq

/-- The config, as far as what it declares of these. -/
structure ConfigLayer where
  baseline : Bool := false
  coverage : Bool := false
  executors : List ExecutorName := []
  defaultRunner : Option RunnerName := none
  commands : List (CommandName × String) := []
  forgeGithub : Bool := false
  isolation : Option Isolation := none

/-- The text of the project's command `name`, if it declares one. -/
def ConfigLayer.command (config : ConfigLayer) (name : CommandName) : Option String :=
  config.commands.lookup name

/-- `defaults.isolation`, a worktree unless it says otherwise. -/
def ConfigLayer.resolvedIsolation (config : ConfigLayer) : Isolation :=
  config.isolation.getD .worktree

/-- Whether this node opens the agent session that an adapter's sandbox and stop govern. -/
def opensSession (node : Node) : Bool :=
  match node.kind with
  | .prompt | .loop => true
  | _ => false

/-- Every command `node` runs itself: its `before` hooks, its own, its `after` hooks. -/
def nodeCommands (node : Node) : List RunCommand :=
  let own := match node.kind with
    | .bash run => [run]
    | _ => []
  node.before ++ own ++ node.after

namespace ConfigKey

/-- What a node's kind needs, and what the session it opens does. -/
def neededByKind (node : Node) : List ConfigKey :=
  match node.kind with
  | .check .coverageGate => [.coverage]
  | .executor named => [.executor named]
  | .pullRequest => [.forge, .runBranch]
  | _ => if opensSession node && node.runner.isNone && node.runners.isEmpty then [.runner] else []

/-- Every key `node` needs the config to declare, in the order a run meets them and each once. -/
def neededBy (node : Node) : List ConfigKey :=
  ((nodeCommands node).filterMap RunCommand.projectName).foldl
    (fun needed name => Saturate.add needed (.command name)) (neededByKind node)

/-- Whether `config` declares this key. -/
def isDeclared (config : ConfigLayer) : ConfigKey → Bool
  | baselineSuite => config.baseline
  | coverage => config.coverage
  | executor named => config.executors.contains named
  | runner => config.defaultRunner.isSome
  | command name => (config.command name).isSome
  | forge => config.forgeGithub
  | runBranch => config.resolvedIsolation = .worktree

/-- Every key `node` needs that `config` leaves unset. -/
def unset (node : Node) (config : ConfigLayer) : List ConfigKey :=
  (neededBy node).filter fun key => !key.isDeclared config

end ConfigKey

/-- Every key `node` needs that `config` leaves unset, its children's included, each once. -/
def lacking (node : Node) (config : ConfigLayer) : List ConfigKey :=
  Saturate.addAll (ConfigKey.unset node config)
    (node.kind.children.flatMap fun child => ConfigKey.unset child config)

/-! ## What a run leaves out -/

/-- Why a node is left out: it lacks these keys, or nothing but `through` leads to it. -/
inductive Because where
  | lacks (lacks : List ConfigKey)
  | through (through : NodeId)
  deriving DecidableEq

structure LeftOut where
  node : NodeId
  because : Because
  deriving DecidableEq

/-- Whether `node` reroutes to `target`, on failure or from a gate's option. -/
def reroutesTo (node : Node) (target : NodeId) : Bool :=
  node.onFailure.any (·.goto = target) ||
    match node.kind with
    | .gate on _ _ => on.any (·.2 = target)
    | _ => false

/-- The top-level nodes that reroute to `target`. -/
def rerouteSources (workflow : Workflow) (target : NodeId) : List NodeId :=
  (workflow.nodes.filter (reroutesTo · target)).map (·.id)

/-- The gone node that alone leads to `node`: it waits on nothing, nothing waits on it, and every
    node that reroutes to it is gone. -/
def onlyThrough (workflow : Workflow) (gone : List NodeId) (node : Node) : Option NodeId :=
  let waitedOn := !(workflow.dependents node.id).isEmpty
  if !node.dependsOn.isEmpty || waitedOn then none
  else
    let sources := rerouteSources workflow node.id
    match sources with
    | [] => none
    | first :: _ => if sources.all gone.contains then some first else none

/-- The nodes that go with `gone`, each with what alone led to it. -/
def followers (workflow : Workflow) (gone : List NodeId) : List (NodeId × NodeId) :=
  Saturate.letIn workflow.nodes (·.id) (onlyThrough workflow) workflow.nodes.length gone

/-- The optional nodes that need a key `config` leaves unset. -/
def lackers (workflow : Workflow) (config : ConfigLayer) : List LeftOut :=
  (workflow.nodes.filter (·.optional)).filterMap fun node =>
    let lacks := lacking node config
    if lacks.isEmpty then none else some ⟨node.id, .lacks lacks⟩

/-- Every top-level node `workflow` leaves out under `config`. -/
def leftOut (workflow : Workflow) (config : ConfigLayer) : List LeftOut :=
  let out := lackers workflow config
  out ++ (followers workflow (out.map (·.node))).map fun gone => ⟨gone.1, .through gone.2⟩

/-- The nodes that must all be gone for `node` to go with them: those that reroute to it, where
    nothing else leads to it. -/
def leads (workflow : Workflow) (node : Node) : Option (List NodeId) :=
  if node.dependsOn = [] ∧ workflow.dependents node.id = [] ∧ rerouteSources workflow node.id ≠ []
  then some (rerouteSources workflow node.id) else none

theorem onlyThrough_asks (workflow : Workflow) :
    Saturate.Asks (onlyThrough workflow) (leads workflow) := by
  intro gone node
  unfold onlyThrough leads
  by_cases hdeps : node.dependsOn = [] <;>
    by_cases hwaited : workflow.dependents node.id = [] <;>
      rcases hsources : rerouteSources workflow node.id with _ | ⟨first, rest⟩ <;>
        simp [hdeps, hwaited, Option.isSome_ite]

/-- What goes once the nodes of `gone` do. -/
abbrev GoesWith (workflow : Workflow) (gone : List NodeId) : NodeId → Prop :=
  Saturate.Follows workflow.nodes (·.id) (leads workflow) gone

theorem mem_followers {workflow : Workflow} {gone : List NodeId} {id : NodeId} :
    (id ∈ gone ∨ id ∈ (followers workflow gone).map Prod.fst) ↔ GoesWith workflow gone id := by
  refine Saturate.mem_letIn (onlyThrough_asks workflow) ?_
  have hle := List.length_filter_le (fun id => Decidable.decide (id ∉ gone))
    (workflow.nodes.map (·.id))
  rw [List.length_map] at hle
  exact hle

/-- An optional node that needs a key `config` leaves unset. -/
def Lacks (workflow : Workflow) (config : ConfigLayer) (id : NodeId) : Prop :=
  ∃ node ∈ workflow.nodes, node.optional = true ∧ lacking node config ≠ [] ∧ node.id = id

theorem mem_lackers {workflow : Workflow} {config : ConfigLayer} {id : NodeId} :
    id ∈ (lackers workflow config).map (·.node) ↔ Lacks workflow config id := by
  unfold lackers Lacks
  simp only [List.mem_map, List.mem_filterMap, List.mem_filter]
  constructor
  · rintro ⟨left, ⟨node, ⟨hnode, hoptional⟩, hleft⟩, rfl⟩
    split at hleft
    · cases hleft
    · next hlacks =>
      obtain rfl := Option.some.inj hleft
      exact ⟨node, hnode, hoptional, by simpa using hlacks, rfl⟩
  · rintro ⟨node, hnode, hoptional, hlacks, rfl⟩
    refine ⟨⟨node.id, .lacks (lacking node config)⟩, ⟨node, ⟨hnode, hoptional⟩, ?_⟩, rfl⟩
    exact if_neg (by simpa using hlacks)

/-- A node `config` leaves out of a run: an optional one that lacks what it needs, or one nothing
    but such nodes leads to. -/
def Gone (workflow : Workflow) (config : ConfigLayer) : NodeId → Prop :=
  GoesWith workflow ((lackers workflow config).map (·.node))

/-- **What a run leaves out is the least set that holds the optional nodes which lack a key and is
    closed under what only it leads to.** -/
theorem mem_leftOut {workflow : Workflow} {config : ConfigLayer} {id : NodeId} :
    id ∈ (leftOut workflow config).map (·.node) ↔ Gone workflow config id := by
  unfold Gone leftOut
  rw [← mem_followers, List.map_append, List.mem_append, List.map_map]
  rfl

/-! ## Where optional may stand -/

/-- `optional` on a child of a `parallel` group, which only its group can honor. -/
def optionalInGroups (workflow : Workflow) : List Diagnostic :=
  workflow.iterNodesWithGroup.zipIdx.filterMap fun ((node, group), index) =>
    if node.optional then
      group.map fun group => about index node.id (.optionalInParallel node.id group.id)
    else none

/-- What `node`, which a run keeps, would lose if the optional nodes went: a reroute with nowhere to
    go, or a read of what nobody made. -/
def needsWhatMayGo (index : Nat) (node : Node) (optional gone : List NodeId) : List Diagnostic :=
  let lostReroutes := ((rerouteTargets node).map Prod.snd).filter optional.contains
  let lostReads := (readSources node).filter fun read => gone.contains read.2
  lostReroutes.map (fun target => about index node.id (.reroutesToOptional target)) ++
    lostReads.map fun read => about index node.id (.readsWhatMayGo read.1 read.2 node.id)

def optionalIds (workflow : Workflow) : List NodeId :=
  (workflow.nodes.filter (·.optional)).map (·.id)

/-- An optional node is one a run may leave out, so it is declared where leaving it out leaves the
    run whole. -/
def mayGo (workflow : Workflow) : List Diagnostic :=
  let optional := optionalIds workflow
  let gone := optional ++ (followers workflow optional).map Prod.fst
  optionalInGroups workflow ++
    workflow.nodes.zipIdx.flatMap fun (node, index) =>
      if gone.contains node.id then [] else needsWhatMayGo index node optional gone

/-- What some config leaves out goes once every optional node does. -/
theorem Gone.mayGo {workflow : Workflow} {config : ConfigLayer} {id : NodeId}
    (h : Gone workflow config id) : GoesWith workflow (optionalIds workflow) id := by
  refine Saturate.Follows.trans (fun lacker hlacker => ?_) h
  obtain ⟨node, hnode, hoptional, -, rfl⟩ := mem_lackers.mp hlacker
  exact .start (List.mem_map_of_mem (List.mem_filter.mpr ⟨hnode, hoptional⟩))

/-- What the rule finds at a node that stays: nothing. -/
theorem needsWhatMayGo_eq_nil {workflow : Workflow} (h : Written.mayGo workflow = []) {node : Node}
    (hnode : node ∈ workflow.nodes) (hstays : ¬ GoesWith workflow (optionalIds workflow) node.id) :
    ∃ index, needsWhatMayGo index node (optionalIds workflow)
      (optionalIds workflow ++ (followers workflow (optionalIds workflow)).map Prod.fst) = [] := by
  obtain ⟨index, hindex⟩ := List.getElem?_of_mem hnode
  have hpair : (node, index) ∈ workflow.nodes.zipIdx := List.mk_mem_zipIdx_iff_getElem?.mpr hindex
  have hnone := List.flatMap_eq_nil_iff.mp (List.append_eq_nil_iff.mp h).2 _ hpair
  have hkept : node.id ∉ optionalIds workflow ++
      (followers workflow (optionalIds workflow)).map Prod.fst := by
    intro hmem
    exact hstays (mem_followers.mp (List.mem_append.mp hmem))
  exact ⟨index, (if_neg (by simpa using hkept)).symm.trans hnone⟩

/-- **A node no config leaves out reads by name only from nodes no config leaves out.** -/
theorem kept_sources {workflow : Workflow} (h : Written.mayGo workflow = []) {node : Node}
    (hnode : node ∈ workflow.nodes) (hkept : ¬ GoesWith workflow (optionalIds workflow) node.id)
    (config : ConfigLayer) : ∀ read ∈ readSources node, ¬ Gone workflow config read.2 := by
  intro read hread hgone
  obtain ⟨index, hnone⟩ := needsWhatMayGo_eq_nil h hnode hkept
  have hreads := List.map_eq_nil_iff.mp (List.append_eq_nil_iff.mp hnone).2
  have hlost : read.2 ∈ optionalIds workflow ++
      (followers workflow (optionalIds workflow)).map Prod.fst :=
    List.mem_append.mpr (mem_followers.mpr hgone.mayGo)
  have hfound : read ∈ (readSources node).filter fun read =>
      (optionalIds workflow ++ (followers workflow (optionalIds workflow)).map Prod.fst).contains
        read.2 := List.mem_filter.mpr ⟨hread, by simpa using hlost⟩
  rw [hreads] at hfound
  exact List.not_mem_nil hfound

/-! ## What leaving out leaves -/

theorem reroutesTo_of_mem {node : Node} {target : NodeId}
    (h : target ∈ (rerouteTargets node).map Prod.snd) : reroutesTo node target = true := by
  unfold rerouteTargets at h
  rw [List.map_append, List.mem_append] at h
  unfold reroutesTo
  rw [Bool.or_eq_true]
  rcases h with hfailure | hgate
  · left
    cases hon : node.onFailure with
    | none => simp [hon] at hfailure
    | some onFailure =>
      have htarget : target = onFailure.goto := by simpa [hon] using hfailure
      simp [htarget]
  · right
    cases hkind : node.kind with
    | gate on external shows =>
      rw [hkind] at hgate
      simp only [List.map_map, List.mem_map, Function.comp_apply] at hgate
      obtain ⟨option, hoption, rfl⟩ := hgate
      exact List.any_eq_true.mpr ⟨option, hoption, by simp⟩
    | _ =>
      rw [hkind] at hgate
      exact absurd hgate List.not_mem_nil

/-- **A node no config leaves out reroutes only to nodes no config leaves out.** -/
theorem kept_targets {workflow : Workflow} (h : mayGo workflow = []) {node : Node}
    (hnode : node ∈ workflow.nodes) (hkept : ¬ GoesWith workflow (optionalIds workflow) node.id)
    (config : ConfigLayer) : ∀ target ∈ (rerouteTargets node).map Prod.snd,
      ¬ Gone workflow config target := by
  intro target htarget hgone
  obtain ⟨index, hnone⟩ := needsWhatMayGo_eq_nil h hnode hkept
  have hreroutes := List.map_eq_nil_iff.mp (List.append_eq_nil_iff.mp hnone).1
  cases hgone.mayGo with
  | start hoptional =>
    have hfound : target ∈ ((rerouteTargets node).map Prod.snd).filter
        (optionalIds workflow).contains := List.mem_filter.mpr ⟨htarget, by simpa using hoptional⟩
    rw [hreroutes] at hfound
    exact List.not_mem_nil hfound
  | item hx hleads hsources =>
    -- what goes because all that leads to it goes would take this node with it
    unfold leads at hleads
    split at hleads
    · cases hleads
      refine hkept (hsources node.id ?_)
      exact List.mem_map_of_mem (List.mem_filter.mpr ⟨hnode, reroutesTo_of_mem htarget⟩)
    · cases hleads

/-- The nodes a node needs a run to hold: those it reroutes to, and those it reads from by name. -/
def namedBy (node : Node) : List NodeId :=
  (rerouteTargets node).map Prod.snd ++ (readSources node).map Prod.snd

/-- No node of `workflow` that `config` keeps needs one it leaves out. -/
def LeavesWhole (workflow : Workflow) (config : ConfigLayer) : Prop :=
  ∀ node ∈ workflow.nodes, node.id ∉ (leftOut workflow config).map (·.node) →
    ∀ id ∈ namedBy node, id ∉ (leftOut workflow config).map (·.node)

/-- The sets that hold the optional nodes which lack a key, and each node whose every way in they
    hold. -/
def ClosedUnder (workflow : Workflow) (config : ConfigLayer) : Set (Set NodeId) :=
  {gone | (∀ id, Lacks workflow config id → id ∈ gone) ∧
    ∀ node ∈ workflow.nodes, ∀ sources, leads workflow node = some sources →
      (∀ source ∈ sources, source ∈ gone) → node.id ∈ gone}

/-- **What a run leaves out is the least such set**, in whatever order its nodes are found. -/
theorem leftOut_isLeast (workflow : Workflow) (config : ConfigLayer) :
    IsLeast (ClosedUnder workflow config) {id | id ∈ (leftOut workflow config).map (·.node)} := by
  constructor
  · constructor
    · intro id hlacks
      exact mem_leftOut.mpr (.start (mem_lackers.mpr hlacks))
    · intro node hnode sources hleads hsources
      refine mem_leftOut.mpr (.item hnode hleads fun source hsource => ?_)
      exact mem_leftOut.mp (hsources source hsource)
  · rintro gone ⟨hlacks, hclosed⟩ id hid
    have hgone : Gone workflow config id := mem_leftOut.mp hid
    induction hgone with
    | start hlacker => exact hlacks _ (mem_lackers.mp hlacker)
    | item hx hleads hsources ih =>
      exact hclosed _ hx _ hleads fun source hsource =>
        ih source hsource (mem_leftOut.mpr (hsources source hsource))

/-- **When what may be left out is never missed.**  Of a workflow the rule passes: exactly when each
    node that may go, and that the config keeps, needs no node the config leaves out.  The rule
    asks nothing of these. -/
theorem leaves_whole_iff (workflow : Workflow) (config : ConfigLayer) (h : mayGo workflow = []) :
    IsLeast (ClosedUnder workflow config) {id | id ∈ (leftOut workflow config).map (·.node)} ∧
      (LeavesWhole workflow config ↔
        ∀ node ∈ workflow.nodes, GoesWith workflow (optionalIds workflow) node.id →
          node.id ∉ (leftOut workflow config).map (·.node) →
            ∀ id ∈ namedBy node, id ∉ (leftOut workflow config).map (·.node)) := by
  refine ⟨leftOut_isLeast workflow config, ?_⟩
  constructor
  · intro hwhole node hnode hgoes hkept
    exact hwhole node hnode hkept
  · intro hmay node hnode hkept id hid
    by_cases hgoes : GoesWith workflow (optionalIds workflow) node.id
    · exact hmay node hnode hgoes hkept id hid
    · rw [mem_leftOut]
      rcases List.mem_append.mp hid with htarget | hread
      · exact kept_targets h hnode hgoes config id htarget
      · obtain ⟨source, hsource, rfl⟩ := List.mem_map.mp hread
        exact kept_sources h hnode hgoes config source hsource

/-- An optional `lint` whose failure goes to `fix`, and a `report` of the tests. -/
def linted : Workflow where
  nodes := [
    { id := "lint", kind := .bash (.project "lint"), onFailure := some ⟨"fix", 1⟩,
      optional := true },
    { id := "fix", kind := .bash (.script "true") },
    { id := "test", kind := .bash (.script "true") },
    { id := "report", kind := .bash (.script "true"), dependsOn := ["test"],
      context := [.nodeOutput "test"] }]

/-- Without a `lint` command the run goes without `lint` and `fix`, and misses neither. -/
theorem leaves_whole_linted : (leftOut linted {}).map (·.node) = ["lint", "fix"] ∧
    LeavesWhole linted {} := by
  have hreads : ∀ node ∈ linted.nodes, node.id ∉ (leftOut linted {}).map (·.node) →
      ∀ id ∈ namedBy node, id ∉ (leftOut linted {}).map (·.node) := by decide +kernel
  exact ⟨by decide +kernel, (leaves_whole_iff linted {} (by decide +kernel)).2.mpr
    fun node hnode _ => hreads node hnode⟩

/-- Two optional nodes, of which one reads from the other: the rule asks nothing of either, and a
    config that declares the one's command and not the other's keeps a read of what nobody made. -/
theorem not_leaves_whole : ¬ ∀ (workflow : Workflow) (config : ConfigLayer),
    mayGo workflow = [] → LeavesWhole workflow config := by
  intro h
  have hwhole := h
    ⟨[{ id := "lint", kind := .bash (.project "lint"), optional := true },
      { id := "report", kind := .bash (.project "report"), optional := true,
        context := [.nodeOutput "lint"] }], none, []⟩
    { commands := [("report", "cat")] } (by decide +kernel)
  revert hwhole
  unfold LeavesWhole
  decide +kernel

end Yunta.Written
