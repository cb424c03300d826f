/-
  The door onto a workflow file: what the rules find in it, and the graph a run of it builds.

  1. **The rules** — each reference is judged where it is written, once (`referencesReach`), then the
     file's implications are expanded, then `check` asks of the graph what the file alone decides.

  2. **The rule on targets** — `checkRunnerFanout` refuses a reroute or a read of a fanned-out node.
     It is asked of the graph the door hands back, which holds no fan-out any more
     (`checkRunnerFanout_read`).

  3. **Main result** — of the references the file writes, the fan-out rewrites what top-level nodes
     wait on and what modes include, and no others.  What the door accepts keeps every reference
     whole exactly when no other one names what the fan-out takes away (`read_whole`).
-/
import Yunta.Scope.Glob
import Yunta.Workflow.Expand
import Yunta.Workflow.Optional

set_option linter.unusedVariables false

namespace Yunta.Written

/-! ## The rules -/

/-- Where in a node the read that is entry `entry` of this site names the node it reads from. -/
def ReadSite.namesItsNode (entry : Nat) : ReadSite → List Step
  | context => [.key "context", .index entry, .key "artifact", .key "node"]
  | mount => [.key "mounts", .index entry, .key "artifact", .key "node"]
  | shows => [.key "shows", .index entry, .key "node"]

/-- Every node a run of `workflow` has, by id, as the reference rule counts them: each the file
    declares, and each sibling a `runners:` would generate. -/
def nodesRun (workflow : Workflow) : List NodeId :=
  workflow.iterNodes.flatMap fun node => node.id :: siblings node

section
variable (selects : ScopeGlob → String → Bool) (nearest : NodeId → List NodeId → Option NodeId)

/-- The id among the other nodes nearest a reference that names none. -/
def nearestOther (ids : List NodeId) (own target : NodeId) : Option NodeId :=
  let others := ids.filter (· ≠ own)
  (nearest target others).bind fun near => others.find? (· = near)

/-- A reference `node` writes under `field` that names no node of `ids`. -/
def reaches (ids : List NodeId) (index : Nat) (node : Node) (field : String) (target : NodeId)
    (at_ : List Step) : List Diagnostic :=
  if ids.contains target then []
  else
    [{ about index node.id
        (.unknownReference field target (nearestOther nearest ids node.id target)) with at_ }]

def nodeReaches (ids : List NodeId) (index : Nat) (node : Node) : List Diagnostic :=
  let waits := node.dependsOn.zipIdx.flatMap fun dep =>
    reaches nearest ids index node "depends_on" dep.1 [.key "depends_on", .index dep.2]
  let reroute := match node.onFailure with
    | some onFailure => reaches nearest ids index node "on_failure.goto" onFailure.goto
        [.key "on_failure", .key "goto"]
    | none => []
  let options := match node.kind with
    | .gate on _ _ => on.flatMap fun option =>
        reaches nearest ids index node "on" option.2 [.key "on", .key option.1]
    | _ => []
  let reads := (artifactReads node).flatMap fun read =>
    match read.node with
    | some producer => reaches nearest ids index node read.site.field producer
        (read.site.namesItsNode read.entry)
    | none => []
  waits ++ reroute ++ options ++ reads

/-- Every reference a top-level node writes reaches a node the run will have. -/
def referencesReach (workflow : Workflow) : List Diagnostic :=
  workflow.nodes.zipIdx.flatMap fun node =>
    nodeReaches nearest (nodesRun workflow) node.2 node.1

/-- Every authored id that spells a fan-out sibling's. -/
def authoredFanOut (workflow : Workflow) : List Diagnostic :=
  (workflow.iterNodes.zipIdx.filter (isFanOut ·.1.id)).map fun node =>
    about node.2 node.1.id .authoredFanOut

/-- `invariant` on a child of a `parallel` group, which only its group can honor. -/
def invariantsOnTop (workflow : Workflow) : List Diagnostic :=
  workflow.iterNodesWithGroup.zipIdx.filterMap fun ((node, group), index) =>
    if node.invariant then
      group.map fun group => about index node.id (.invariantInParallel node.id group.id)
    else none

/-- The nodes whose id was seen before. -/
def duplicates : List NodeId → List (Node × Nat) → List Diagnostic
  | _, [] => []
  | seen, (node, index) :: rest =>
    if seen.contains node.id then about index node.id .duplicateNode :: duplicates seen rest
    else duplicates (node.id :: seen) rest

/-- Every id is declared once, groups' children included. -/
def declaredOnce (workflow : Workflow) : List Diagnostic := duplicates [] workflow.iterNodes.zipIdx

/-- The overlaps of two children of the group `group`, the `index`-th node of its list. -/
def scopePair (index : Nat) (group : NodeId) (a b : Node) : List Diagnostic :=
  a.scope.overlapGlobs.flatMap fun globA =>
    (b.scope.overlapGlobs.filter (mightOverlap selects globA)).map fun globB =>
      about index group (.overlappingParallelScope a.id globA b.id globB)

def scopePairs (index : Nat) (group : NodeId) : List Node → List Diagnostic
  | [] => []
  | a :: rest => rest.flatMap (scopePair selects index group a) ++ scopePairs index group rest

mutual

def nodeScopes : Nat → Node → List Diagnostic
  | index, ⟨id, kind, _, _, _, _, _, _, _, _, _, _, _⟩ => kindScopes index id kind

def kindScopes : Nat → NodeId → NodeKind → List Diagnostic
  | index, id, .parallel children =>
    scopePairs selects index id children ++ parallelScopesFrom 0 children
  | _, _, _ => []

/-- Two children of one group never reach for the same files: they run at once, in one tree. -/
def parallelScopesFrom : Nat → List Node → List Diagnostic
  | _, [] => []
  | index, node :: rest => nodeScopes index node ++ parallelScopesFrom (index + 1) rest

end

/-- What a mode breaks by naming a node the file does not declare, or leaving out an invariant. -/
def unlistedOrInvariant (workflow : Workflow) (mode : ModeName) (named : List NodeId) :
    List Diagnostic :=
  let topLevel := workflow.nodes.map (·.id)
  let invariants := (workflow.nodes.filter (·.invariant)).map (·.id)
  ((named.zipIdx.filter fun id => !topLevel.contains id.1).map fun id =>
    about id.2 id.1 (.unknownModeNode mode id.1)) ++
  (invariants.zipIdx.filter fun id => !named.contains id.1).map fun id =>
    about id.2 id.1 (.invariantLeftOut mode)

/-- The top-level node an id stands in: the last, where two share it. -/
def topOf (workflow : Workflow) (id : NodeId) : Option NodeId :=
  (workflow.iterNodesWithGroup.reverse.find? (·.1.id = id)).map fun (node, group) =>
    (group.map (·.id)).getD node.id

/-- What a mode breaks by cutting a link of a node it keeps: a reroute, or a read, whose target it
    leaves out. -/
def cutLinks (workflow : Workflow) (mode : ModeName) (included earlier : List NodeId)
    (earlierAll : Bool) : List Diagnostic :=
  (workflow.nodes.zipIdx.filter fun node => included.contains node.1.id).flatMap fun node =>
    (((rerouteTargets node.1).filter fun to_ => !included.contains to_.2).map fun to_ =>
      about node.2 node.1.id (.rerouteLeftOut to_.1 to_.2 mode)) ++
    ((readSources node.1).filter fun read => (topOf workflow read.2).any fun top =>
        !included.contains top && !earlierAll && !earlier.contains top).map fun read =>
      about node.2 node.1.id (.sourceLeftOut read.1 read.2 mode)

/-- What each mode breaks, after those that keep `earlier`. -/
def modesFrom (workflow : Workflow) : List NodeId → Bool → List (ModeName × ModeInclude) →
    List Diagnostic
  | _, _, [] => []
  | earlier, _, (_, .all) :: rest => modesFrom workflow earlier true rest
  | earlier, earlierAll, (mode, .nodes named) :: rest =>
    unlistedOrInvariant workflow mode named ++ cutLinks workflow mode named earlier earlierAll ++
      modesFrom workflow (earlier ++ named) earlierAll rest

/-- Every declared mode leaves a graph that still runs. -/
def modesStillRun (workflow : Workflow) : List Diagnostic :=
  match workflow.modes with
  | none => []
  | some modes => modesFrom workflow [] false modes

/-- Every rule the file alone decides. -/
def check (workflow : Workflow) : List Diagnostic :=
  declaredOnce workflow ++ parallelScopesFrom selects 0 workflow.nodes ++ invariantsOnTop workflow ++
    mayGo workflow ++ modesStillRun workflow

/-- What the rules find in `workflow`, and the graph a run of it builds; none when the file writes
    an id only a fan-out may. -/
def judged (workflow : Workflow) : List Diagnostic × Option Workflow :=
  let authored := authoredFanOut workflow
  if authored.isEmpty then
    let broken := referencesReach nearest workflow
    let graph := expandImplicitDependencies (expandRunnerFanout workflow)
    (broken ++ check selects graph, some graph)
  else (authored, none)

end

/-! ## The rule on targets -/

inductive FanOutError where
  | bothRunnerAndRunners (node : NodeId)
  | fanOutTarget (node target : NodeId)
  | mountOnFanOut (node target : NodeId)
  deriving DecidableEq

def readError (node : NodeId) (site : ReadSite) (target : NodeId) : FanOutError :=
  match site with
  | .mount => .mountOnFanOut node target
  | _ => .fanOutTarget node target

/-- Runner fan-out declaration rules. -/
def checkRunnerFanout (workflow : Workflow) : List FanOutError :=
  let fanoutIds := (workflow.nodes.filter fun node => !node.runners.isEmpty).map (·.id)
  workflow.nodes.flatMap fun node =>
    (if !node.runners.isEmpty && node.runner.isSome then [.bothRunnerAndRunners node.id] else []) ++
    (((rerouteTargets node).map Prod.snd).filter fanoutIds.contains).map (.fanOutTarget node.id) ++
    (artifactReads node).filterMap fun read =>
      (read.node.filter fanoutIds.contains).map (readError node.id read.site)

theorem settle_runners (node : Node) : (settle node).runners = node.runners := by
  cases node
  rfl

/-- No node of the graph the door hands back fans out. -/
theorem runners_read {workflow : Workflow} {node : Node}
    (h : node ∈ (expandImplicitDependencies (expandRunnerFanout workflow)).nodes) :
    node.runners = [] := by
  have hsettled : node ∈ settleAll (expandRunnerFanout workflow).nodes := h
  rw [settleAll_eq] at hsettled
  obtain ⟨fanned, hfanned, rfl⟩ := List.mem_map.mp hsettled
  obtain ⟨top, htop, copy, hcopy, rfl⟩ := mem_fanned.mp hfanned
  rw [settle_runners]
  show copy.runners = []
  unfold copies at hcopy
  split at hcopy
  · next hplain =>
    obtain rfl := List.mem_singleton.mp hcopy
    exact List.isEmpty_iff.mp hplain
  · obtain ⟨runner, -, rfl⟩ := List.mem_map.mp hcopy
    rfl

/-- **Asked of the graph the door hands back, the rule on targets refuses nothing.** -/
theorem checkRunnerFanout_read (workflow : Workflow) :
    checkRunnerFanout (expandImplicitDependencies (expandRunnerFanout workflow)) = [] := by
  have hnone : ((expandImplicitDependencies (expandRunnerFanout workflow)).nodes.filter fun node =>
      !node.runners.isEmpty) = [] := by
    refine List.filter_eq_nil_iff.mpr fun node hnode => ?_
    simp [runners_read hnode]
  unfold checkRunnerFanout
  rw [hnone]
  refine List.flatMap_eq_nil_iff.mpr fun node hnode => ?_
  simp [runners_read hnode]

/-! ## What the rules leave standing -/

/-- The nodes a node sends control to, or reads an artifact from. -/
def targets (node : Node) : List NodeId :=
  ((rerouteTargets node).map Prod.snd) ++ readNodes node

/-- Every node a node names. -/
def references (node : Node) : List NodeId := node.dependsOn ++ targets node

/-- A sibling only the `runners:` of a group's child would generate: a fan-out expands top-level
    nodes. -/
def GroupSibling (workflow : Workflow) (id : NodeId) : Prop :=
  ∃ top ∈ workflow.nodes, ∃ node ∈ kindNested top.kind, id ∈ siblings node

theorem targets_settle (node : Node) : targets (settle node) = targets node := by
  unfold targets rerouteTargets
  rw [readNodes_settle, settle_onFailure, settle_kind]
  cases node.kind <;> rfl

section
variable {selects : ScopeGlob → String → Bool}
  {nearest : NodeId → List NodeId → Option NodeId} {workflow : Workflow}

theorem reaches_nil {ids : List NodeId} {index : Nat} {node : Node} {field : String}
    {target : NodeId} {at_ : List Step} :
    reaches nearest ids index node field target at_ = [] ↔ target ∈ ids := by
  unfold reaches
  by_cases h : target ∈ ids
  · simp [h]
  · simp [h]

/-- **Where the reference rule finds nothing, each id a top-level node names is one it counts.** -/
theorem mem_nodesRun (h : referencesReach nearest workflow = []) {top : Node}
    (htop : top ∈ workflow.nodes) : ∀ ref ∈ references top, ref ∈ nodesRun workflow := by
  obtain ⟨index, hindex⟩ := List.getElem?_of_mem htop
  have hpair : (top, index) ∈ workflow.nodes.zipIdx := List.mk_mem_zipIdx_iff_getElem?.mpr hindex
  have hnone := List.flatMap_eq_nil_iff.mp h _ hpair
  unfold nodeReaches at hnone
  simp only [List.append_eq_nil_iff] at hnone
  obtain ⟨⟨⟨hwaits, hreroute⟩, hoptions⟩, hreads⟩ := hnone
  intro ref href
  unfold references targets rerouteTargets at href
  simp only [List.mem_append, List.map_append, List.mem_map] at href
  rcases href with hdep | (⟨reroute, hreroutes, rfl⟩ | ⟨option, hoption, rfl⟩) | hread
  · obtain ⟨position, hposition⟩ := List.getElem?_of_mem hdep
    have hat := List.mk_mem_zipIdx_iff_getElem?.mpr hposition
    exact reaches_nil.mp (List.flatMap_eq_nil_iff.mp hwaits _ hat)
  · rcases honFailure : top.onFailure with _ | onFailure
    · rw [honFailure] at hreroutes
      exact absurd hreroutes List.not_mem_nil
    · rw [honFailure] at hreroutes hreroute
      obtain rfl := List.mem_singleton.mp hreroutes
      exact reaches_nil.mp hreroute
  · rcases hkind : top.kind with _ | _ | _ | _ | _ | _ | ⟨on, shows, external⟩ | _ | _
    case gate =>
      rw [hkind] at hoption hoptions
      obtain ⟨chosen, hchosen, rfl⟩ := List.mem_map.mp hoption
      have hfound := List.flatMap_eq_nil_iff.mp hoptions chosen hchosen
      exact reaches_nil.mp hfound
    all_goals
      rw [hkind] at hoption
      exact absurd hoption List.not_mem_nil
  · obtain ⟨read, hmem, hnode⟩ := List.mem_filterMap.mp hread
    have hfound := List.flatMap_eq_nil_iff.mp hreads _ hmem
    rw [hnode] at hfound
    exact reaches_nil.mp hfound

/-- What the reference rule counts survives the fan-out, or the fan-out takes it away, or it never
    comes to be. -/
theorem survives_or {id : NodeId} (h : id ∈ nodesRun workflow) :
    Survives workflow id ∨ FannedOut workflow id ∨ GroupSibling workflow id := by
  obtain ⟨node, hnode, hid⟩ := List.mem_flatMap.mp h
  obtain ⟨top, htop, hnested⟩ := mem_nodesAndNested.mp hnode
  rw [nodeAndNested_eq] at hnested
  rcases List.mem_cons.mp hnested with rfl | hnested
  · by_cases hplain : node.runners.isEmpty = true
    · refine .inl ⟨node, htop, .inl ?_⟩
      have hnone : siblings node = [] := by simp [siblings, List.isEmpty_iff.mp hplain]
      rw [hnone] at hid
      rw [runIds, if_pos hplain]
      exact hid
    · rcases List.mem_cons.mp hid with rfl | hsibling
      · refine .inr (.inl (List.ne_nil_of_mem (List.mem_filter.mpr ⟨htop, ?_⟩)))
        simp [hplain]
      · refine .inl ⟨node, htop, .inl ?_⟩
        rw [runIds, if_neg hplain]
        exact hsibling
  · rcases List.mem_cons.mp hid with rfl | hsibling
    · exact .inl ⟨top, htop, .inr ⟨node, hnested, rfl⟩⟩
    · exact .inr (.inr ⟨top, htop, node, hnested, hsibling⟩)

theorem duplicates_nil {seen : List NodeId} {nodes : List (Node × Nat)}
    (h : duplicates seen nodes = []) :
    (nodes.map (·.1.id)).Nodup ∧ ∀ id ∈ nodes.map (·.1.id), id ∉ seen := by
  induction nodes generalizing seen with
  | nil => simp
  | cons first rest ih =>
    obtain ⟨node, index⟩ := first
    rw [duplicates] at h
    split at h
    · cases h
    · next hnew =>
      obtain ⟨hrest, hfresh⟩ := ih h
      have hnode : node.id ∉ seen := by simpa using hnew
      refine ⟨List.nodup_cons.mpr ⟨fun hmem => ?_, hrest⟩, ?_⟩
      · exact hfresh node.id hmem List.mem_cons_self
      · intro id hid
        rcases List.mem_cons.mp hid with rfl | hid
        · exact hnode
        · exact fun hseen => hfresh id hid (List.mem_cons_of_mem _ hseen)

/-- Where every id is declared once, no two nodes of the graph share one. -/
theorem distinct_of_declaredOnce (h : declaredOnce workflow = []) :
    (workflow.iterNodes.map (·.id)).Nodup := by
  have hnodup := (duplicates_nil h).1
  have hids : workflow.iterNodes.zipIdx.map (·.1.id) = workflow.iterNodes.map (·.id) := by
    have hsplit : workflow.iterNodes.zipIdx.map (·.1.id) =
        (workflow.iterNodes.zipIdx.map Prod.fst).map (·.id) := by
      rw [List.map_map]
      rfl
    rw [hsplit, List.zipIdx_map_fst]
  rwa [hids] at hnodup

/-- A mode the rule lets through includes top-level nodes only. -/
theorem included_of_modesFrom {earlier : List NodeId} {earlierAll : Bool}
    {modes : List (ModeName × ModeInclude)}
    (h : modesFrom workflow earlier earlierAll modes = []) :
    ∀ mode ids, (mode, .nodes ids) ∈ modes → ∀ id ∈ ids, id ∈ workflow.nodes.map (·.id) := by
  induction modes generalizing earlier earlierAll with
  | nil => exact fun mode ids hmem => absurd hmem List.not_mem_nil
  | cons first rest ih =>
    obtain ⟨name, included⟩ := first
    intro mode ids hmem id hid
    cases included with
    | all =>
      rw [modesFrom] at h
      rcases List.mem_cons.mp hmem with heq | hrest
      · cases heq
      · exact ih h mode ids hrest id hid
    | nodes named =>
      rw [modesFrom] at h
      obtain ⟨hhere, hafter⟩ := List.append_eq_nil_iff.mp h
      rcases List.mem_cons.mp hmem with heq | hrest
      · obtain ⟨rfl, hnodes⟩ := Prod.mk.inj heq
        obtain rfl := ModeInclude.nodes.inj hnodes
        have hunlisted := (List.append_eq_nil_iff.mp (List.append_eq_nil_iff.mp hhere).1).1
        obtain ⟨position, hposition⟩ := List.getElem?_of_mem hid
        have hat := List.mk_mem_zipIdx_iff_getElem?.mpr hposition
        by_contra hout
        have hlacks : (!(workflow.nodes.map (·.id)).contains id) = true := by simpa using hout
        have hfound : (id, position) ∈ ids.zipIdx.filter fun id =>
            !(workflow.nodes.map (·.id)).contains id.1 := List.mem_filter.mpr ⟨hat, hlacks⟩
        rw [List.map_eq_nil_iff.mp hunlisted] at hfound
        exact List.not_mem_nil hfound
      · exact ih hafter mode ids hrest id hid

/-- What the door accepts: what it found nothing against, and the graph it hands back. -/
theorem judged_accepts {read : Workflow} (h : judged selects nearest workflow = ([], some read)) :
    authoredFanOut workflow = [] ∧ referencesReach nearest workflow = [] ∧
      read = expandImplicitDependencies (expandRunnerFanout workflow) ∧ check selects read = [] := by
  unfold judged at h
  by_cases hauthored : (authoredFanOut workflow).isEmpty = true
  · rw [if_pos hauthored] at h
    obtain ⟨hbroken, hread⟩ := Prod.mk.inj h
    obtain ⟨hreach, hcheck⟩ := List.append_eq_nil_iff.mp hbroken
    obtain rfl := Option.some.inj hread
    exact ⟨List.isEmpty_iff.mp hauthored, hreach, rfl, hcheck⟩
  · rw [if_neg hauthored] at h
    have hnone := (Prod.mk.inj h).2
    cases hnone

theorem isFanOut_fanOut (base : NodeId) (runner : RunnerName) :
    isFanOut (fanOut base runner) = true := by
  simp [isFanOut, fanOut, String.toList_append]

/-- Where no id is written with the fan-out's mark, a fanned-out id never stands for itself. -/
theorem spread_eq_self_iff (h : authoredFanOut workflow = []) {id : NodeId} :
    spread workflow id = [id] ↔ ¬ FannedOut workflow id := by
  unfold spread FannedOut
  by_cases hfans : fansOf workflow.nodes id = []
  · simp [hfans]
  · refine iff_of_false (fun hself => ?_) (fun hnot => hnot hfans)
    rw [if_neg hfans] at hself
    have hmem : id ∈ (fansOf workflow.nodes id).flatMap siblings := by
      rw [hself]
      exact List.mem_singleton.mpr rfl
    obtain ⟨fan, hfan, hsibling⟩ := List.mem_flatMap.mp hmem
    obtain ⟨runner, -, hid⟩ := List.mem_map.mp hsibling
    obtain ⟨htop, hkey⟩ := List.mem_filter.mp hfan
    have hwritten : fan.id = id := of_decide_eq_true (Bool.and_eq_true_iff.mp hkey).2
    have hiter : fan ∈ workflow.iterNodes :=
      mem_nodesAndNested.mpr ⟨fan, htop, self_mem_nodeAndNested fan⟩
    obtain ⟨index, hindex⟩ := List.getElem?_of_mem hiter
    have hmark : isFanOut fan.id = true := by
      rw [hwritten, ← hid]
      exact isFanOut_fanOut _ _
    have hfound : (fan, index) ∈ workflow.iterNodes.zipIdx.filter (isFanOut ·.1.id) :=
      List.mem_filter.mpr ⟨List.mk_mem_zipIdx_iff_getElem?.mpr hindex, hmark⟩
    rw [List.map_eq_nil_iff.mp h] at hfound
    exact List.not_mem_nil hfound

theorem mem_references_settle {node : Node} {ref : NodeId} :
    ref ∈ references (settle node) ↔ ref ∈ references node := by
  unfold references
  rw [settle_dependsOn, targets_settle, List.mem_append, List.mem_append, Saturate.mem_addAll,
    or_assoc]
  have hreads : ref ∈ readNodes node → ref ∈ targets node := List.mem_append_right _
  tauto

theorem targets_copies {top copy : Node} (h : copy ∈ copies top) :
    targets (rewire workflow copy) = targets top := by
  unfold copies at h
  split at h
  · obtain rfl := List.mem_singleton.mp h
    rfl
  · obtain ⟨runner, -, rfl⟩ := List.mem_map.mp h
    rfl

theorem read_ids : (expandImplicitDependencies (expandRunnerFanout workflow)).iterNodes.map (·.id) =
    (expandRunnerFanout workflow).iterNodes.map (·.id) := by
  rw [iterNodes_settled, List.map_map]
  exact List.map_congr_left fun node _ => settle_id node

/-- A sibling some fan-out of `id` generates survives. -/
theorem survives_of_entry {id dep : NodeId} (hfans : FannedOut workflow id)
    (hdep : dep ∈ entry workflow id) : Survives workflow dep := by
  rw [entry_eq, List.getLast?_eq_some_getLast hfans] at hdep
  have hlast := List.mem_filter.mp (List.getLast_mem hfans)
  refine ⟨_, hlast.1, .inl ?_⟩
  rw [runIds, if_neg]
  · exact hdep
  · have hruns := (Bool.and_eq_true_iff.mp hlast.2).1
    simpa using hruns

theorem entry_of_not_fannedOut {id : NodeId} (h : ¬ FannedOut workflow id) :
    entry workflow id = [id] := by
  have hnone : fansOf workflow.nodes id = [] := by simpa [FannedOut] using h
  rw [entry_eq, hnone]
  rfl

theorem rewired_survives_iff {deps : List NodeId} :
    (∀ dep ∈ rewired workflow deps, Survives workflow dep) ↔
      ∀ dep ∈ deps, FannedOut workflow dep ∨ Survives workflow dep := by
  unfold rewired
  constructor
  · intro h dep hdep
    by_cases hfans : FannedOut workflow dep
    · exact .inl hfans
    · refine .inr (h dep (List.mem_flatMap.mpr ⟨dep, hdep, ?_⟩))
      rw [entry_of_not_fannedOut hfans]
      exact List.mem_singleton.mpr rfl
  · intro h ref href
    obtain ⟨dep, hdep, hentry⟩ := List.mem_flatMap.mp href
    by_cases hfans : FannedOut workflow dep
    · exact survives_of_entry hfans hentry
    · rw [entry_of_not_fannedOut hfans] at hentry
      obtain rfl := List.mem_singleton.mp hentry
      exact (h ref hdep).resolve_left hfans

/-- **A node of the graph names only nodes of it exactly when what it was written to name survives**,
    but for what a top-level node waits on, which is rewritten. -/
theorem named_iff :
    (∀ node ∈ (expandImplicitDependencies (expandRunnerFanout workflow)).iterNodes,
      ∀ ref ∈ references node, ref ∈
        (expandImplicitDependencies (expandRunnerFanout workflow)).iterNodes.map (·.id)) ↔
    ∀ top ∈ workflow.nodes,
      (∀ dep ∈ top.dependsOn, FannedOut workflow dep ∨ Survives workflow dep) ∧
      (∀ target ∈ targets top, Survives workflow target) ∧
      ∀ node ∈ kindNested top.kind, ∀ ref ∈ references node, Survives workflow ref := by
  rw [read_ids, iterNodes_settled, List.forall_mem_map]
  simp only [mem_references_settle, mem_fanned_ids]
  constructor
  · intro h top htop
    obtain ⟨copy, hcopy⟩ := List.exists_mem_of_ne_nil _ (copies_ne_nil top)
    have hnode := mem_iterNodes_fanned.mpr ⟨top, htop, .inl ⟨copy, hcopy, rfl⟩⟩
    have hrefs := h _ hnode
    refine ⟨?_, ?_, ?_⟩
    · refine rewired_survives_iff.mp fun dep hdep => hrefs dep (List.mem_append_left _ ?_)
      rw [← copies_dependsOn hcopy] at hdep
      exact hdep
    · intro target htarget
      refine hrefs target (List.mem_append_right _ ?_)
      rw [targets_copies hcopy]
      exact htarget
    · intro node hnested
      exact h node (mem_iterNodes_fanned.mpr ⟨top, htop, .inr hnested⟩)
  · intro h node hnode ref href
    obtain ⟨top, htop, ⟨copy, hcopy, rfl⟩ | hnested⟩ := mem_iterNodes_fanned.mp hnode
    · obtain ⟨hdeps, htargets, -⟩ := h top htop
      rcases List.mem_append.mp href with hdep | htarget
      · refine rewired_survives_iff.mpr hdeps ref ?_
        rw [← copies_dependsOn hcopy]
        exact hdep
      · rw [targets_copies hcopy] at htarget
        exact htargets ref htarget
    · exact (h top htop).2.2 node hnested ref href

end

/-! ## Whole references -/

section
variable (workflow : Workflow)

/-- The node written as `written` is one the graph has as `id`. -/
def RunsAs (written : Node) (id : NodeId) : Prop :=
  (written ∈ workflow.nodes ∧ id ∈ runIds written) ∨
    ∃ top ∈ workflow.nodes, written ∈ kindNested top.kind ∧ written.id = id

/-- An id a mode includes. -/
def Included (id : NodeId) : Prop :=
  ∃ modes, workflow.modes = some modes ∧ ∃ mode ids, (mode, .nodes ids) ∈ modes ∧ id ∈ ids

/-- The file's references, kept whole in the graph `read` of it. -/
structure ReadWhole (read : Workflow) : Prop where
  /-- Every reference of a node names a node of the graph. -/
  named : ∀ node ∈ read.iterNodes, ∀ ref ∈ references node, ref ∈ read.iterNodes.map (·.id)
  /-- Every id a mode includes names a node of the graph. -/
  included : ∀ id, Included read id → id ∈ read.iterNodes.map (·.id)
  /-- A node waits on what it was written to wait on, each fanned-out id replaced by all its
      siblings. -/
  waits : ∀ written id, RunsAs workflow written id →
    ∀ node ∈ (expandRunnerFanout workflow).iterNodes, node.id = id →
      node.dependsOn = written.dependsOn.flatMap (spread workflow)
  /-- A mode includes what it was written to include, replaced in the same way. -/
  includes : (expandRunnerFanout workflow).modes = workflow.modes.map fun modes =>
    modes.map fun mode => (mode.1, rewireInclude (·.flatMap (spread workflow)) mode.2)
  /-- No sibling of an id is named twice. -/
  once : ∀ id, (spread workflow id).Nodup
  /-- The edges added to a node are those to the nodes its artifact reads name. -/
  implied : ∀ fanned ∈ (expandRunnerFanout workflow).iterNodes, ∀ node ∈ read.iterNodes,
    node.id = fanned.id →
      node.dependsOn = Saturate.addAll fanned.dependsOn (readNodes fanned)

/-- Nothing the file refers to is lost to the fan-out. -/
structure NothingLost : Prop where
  /-- No reroute, gate option or artifact read of a top-level node names what a fan-out replaces, or
      a sibling only a group's child would have. -/
  targets : ∀ top ∈ workflow.nodes, ∀ target ∈ targets top,
    FannedOut workflow target ∨ GroupSibling workflow target → Survives workflow target
  /-- No top-level node waits on a sibling only a group's child would have. -/
  waits : ∀ top ∈ workflow.nodes, ∀ dep ∈ top.dependsOn,
    GroupSibling workflow dep → FannedOut workflow dep ∨ Survives workflow dep
  /-- A group's child, whose references no rule reads, names what survives, and waits on no
      fanned-out id. -/
  nested : ∀ top ∈ workflow.nodes, ∀ node ∈ kindNested top.kind,
    (∀ ref ∈ references node, Survives workflow ref) ∧
      ∀ dep ∈ node.dependsOn, ¬ FannedOut workflow dep
  /-- No two fan-outs share an id a top-level node waits on or a mode includes. -/
  apart : ∀ id, (∃ top ∈ workflow.nodes, id ∈ top.dependsOn) ∨ Included workflow id →
    (fansOf workflow.nodes id).length ≤ 1

end

section
variable {workflow : Workflow}

theorem eq_of_id {nodes : List Node} (h : (nodes.map (·.id)).Nodup) {a b : Node} (ha : a ∈ nodes)
    (hb : b ∈ nodes) (hid : a.id = b.id) : a = b :=
  List.inj_on_of_nodup_map h ha hb hid

/-- What replaced the ids a top-level node waits on is all their siblings exactly where no two
    fan-outs share one. -/
theorem rewired_eq_iff {ids : List NodeId} :
    rewired workflow ids = ids.flatMap (spread workflow) ↔
      ∀ id ∈ ids, (fansOf workflow.nodes id).length ≤ 1 := by
  unfold rewired
  rw [flatMap_eq_iff entry_length_le]
  exact forall₂_congr fun id _ => entry_eq_spread_iff

/-- What a group's child waits on is left as it was written. -/
theorem unrewired_eq_iff (hauthored : authoredFanOut workflow = []) {ids : List NodeId} :
    ids = ids.flatMap (spread workflow) ↔ ∀ id ∈ ids, ¬ FannedOut workflow id := by
  have hself : ids = ids.flatMap fun id => [id] := by simp
  have hle : ∀ id, [id].length ≤ (spread workflow id).length := by
    intro id
    unfold spread
    by_cases hfans : fansOf workflow.nodes id = []
    · simp [hfans]
    · obtain ⟨fan, hfan⟩ := List.exists_mem_of_ne_nil _ hfans
      have hsiblings := List.length_pos_iff.mpr (siblings_ne_nil hfan)
      have hmem := length_le_flatMap siblings hfan
      rw [if_neg hfans, List.length_singleton]
      omega
  constructor
  · intro h id hid
    have hsame := (flatMap_eq_iff hle).mp (hself.symm.trans h)
    exact (spread_eq_self_iff hauthored).mp (hsame id hid).symm
  · intro h
    refine hself.trans ((flatMap_eq_iff hle).mpr fun id hid => ?_)
    exact ((spread_eq_self_iff hauthored).mpr (h id hid)).symm

/-- **What waits on a fanned-out id waits on all its siblings** exactly where no two fan-outs share
    it, and no group's child waits on it. -/
theorem waits_iff (hauthored : authoredFanOut workflow = [])
    (hdistinct : ((expandRunnerFanout workflow).iterNodes.map (·.id)).Nodup) :
    (∀ written id, RunsAs workflow written id →
      ∀ node ∈ (expandRunnerFanout workflow).iterNodes, node.id = id →
        node.dependsOn = written.dependsOn.flatMap (spread workflow)) ↔
    ∀ top ∈ workflow.nodes,
      (∀ dep ∈ top.dependsOn, (fansOf workflow.nodes dep).length ≤ 1) ∧
      ∀ node ∈ kindNested top.kind, ∀ dep ∈ node.dependsOn, ¬ FannedOut workflow dep := by
  constructor
  · intro h top htop
    refine ⟨?_, ?_⟩
    · obtain ⟨copy, hcopy⟩ := List.exists_mem_of_ne_nil _ (copies_ne_nil top)
      have hrun : copy.id ∈ runIds top := by
        rw [← copies_ids]
        exact List.mem_map_of_mem hcopy
      have hnode := mem_iterNodes_fanned.mpr ⟨top, htop, .inl ⟨copy, hcopy, rfl⟩⟩
      have hwaits := h top copy.id (.inl ⟨htop, hrun⟩) _ hnode rfl
      rw [← rewired_eq_iff, ← hwaits, ← copies_dependsOn hcopy]
      rfl
    · intro node hnested
      have hnode := mem_iterNodes_fanned.mpr ⟨top, htop, .inr hnested⟩
      have hwaits := h node node.id (.inr ⟨top, htop, hnested, rfl⟩) node hnode rfl
      exact (unrewired_eq_iff hauthored).mp hwaits
  · rintro h written id (⟨htop, hrun⟩ | ⟨top, htop, hnested, rfl⟩) node hnode hid
    · rw [← copies_ids] at hrun
      obtain ⟨copy, hcopy, rfl⟩ := List.mem_map.mp hrun
      have hother := mem_iterNodes_fanned.mpr ⟨written, htop, .inl ⟨copy, hcopy, rfl⟩⟩
      obtain rfl := eq_of_id hdistinct hnode hother hid
      rw [← rewired_eq_iff.mpr (h written htop).1, ← copies_dependsOn hcopy]
      rfl
    · have hother := mem_iterNodes_fanned.mpr ⟨top, htop, .inr hnested⟩
      obtain rfl := eq_of_id hdistinct hnode hother hid
      exact (unrewired_eq_iff hauthored).mpr ((h top htop).2 node hnested)

/-- **What a mode includes names all the siblings** exactly where no two fan-outs share an id it
    includes. -/
theorem includes_iff :
    ((expandRunnerFanout workflow).modes = workflow.modes.map fun modes =>
      modes.map fun mode => (mode.1, rewireInclude (·.flatMap (spread workflow)) mode.2)) ↔
    ∀ id, Included workflow id → (fansOf workflow.nodes id).length ≤ 1 := by
  show (workflow.modes.map fun modes => modes.map fun mode =>
      (mode.1, rewireInclude (rewired workflow) mode.2)) = _ ↔ _
  unfold Included
  rcases hmodes : workflow.modes with _ | modes
  · simp
  · rw [Option.map_some, Option.map_some, Option.some_inj, List.map_inj_left]
    constructor
    · rintro h id ⟨_, hsome, mode, ids, hmem, hid⟩
      obtain rfl := Option.some.inj hsome
      have hsame := (Prod.mk.inj (h _ hmem)).2
      exact rewired_eq_iff.mp (ModeInclude.nodes.inj hsame) id hid
    · intro h mode hmem
      obtain ⟨name, included⟩ := mode
      cases included with
      | all => rfl
      | nodes ids =>
        have hsame := rewired_eq_iff.mpr fun id hid => h id ⟨modes, rfl, name, ids, hmem, hid⟩
        exact congrArg (fun ids => (name, ModeInclude.nodes ids)) hsame

theorem sublist_nodesAndNested (nodes : List Node) : nodes.Sublist (nodesAndNested nodes) := by
  induction nodes with
  | nil => exact List.Sublist.refl _
  | cons first rest ih =>
    rw [nodesAndNested, nodeAndNested_eq, List.cons_append]
    exact (ih.trans (List.sublist_append_right _ _)).cons_cons first

theorem siblings_sublist (nodes : List Node) (id : NodeId) :
    ((fansOf nodes id).flatMap siblings).Sublist (nodes.flatMap runIds) := by
  induction nodes with
  | nil => exact List.Sublist.refl _
  | cons first rest ih =>
    by_cases hfan : (!first.runners.isEmpty && Decidable.decide (first.id = id)) = true
    · have hruns : runIds first = siblings first :=
        if_neg (by simpa using (Bool.and_eq_true_iff.mp hfan).1)
      have hfans : fansOf (first :: rest) id = first :: fansOf rest id :=
        List.filter_cons_of_pos hfan
      rw [hfans, List.flatMap_cons, List.flatMap_cons, hruns]
      exact List.Sublist.append_left ih _
    · have hfans : fansOf (first :: rest) id = fansOf rest id := List.filter_cons_of_neg hfan
      rw [hfans, List.flatMap_cons]
      exact ih.trans (List.sublist_append_right _ _)

/-- Where no two nodes of the graph share an id, no id's siblings hold one twice. -/
theorem spread_nodup (hdistinct : ((expandRunnerFanout workflow).iterNodes.map (·.id)).Nodup)
    (id : NodeId) : (spread workflow id).Nodup := by
  have htops : (expandRunnerFanout workflow).nodes.map (·.id) = workflow.nodes.flatMap runIds := by
    show ((workflow.nodes.flatMap copies).map (rewire workflow)).map (·.id) = _
    rw [List.map_map, List.map_flatMap]
    exact List.flatMap_congr fun node _ => copies_ids node
  have hruns : (workflow.nodes.flatMap runIds).Nodup := by
    rw [← htops]
    exact hdistinct.sublist ((sublist_nodesAndNested _).map _)
  unfold spread
  split
  · exact List.nodup_singleton id
  · exact hruns.sublist (siblings_sublist workflow.nodes id)

/-- **What the door accepts keeps every reference whole exactly when nothing is lost to the
    fan-out.** -/
theorem read_whole {selects : ScopeGlob → String → Bool}
    {nearest : NodeId → List NodeId → Option NodeId} {workflow read : Workflow}
    (h : judged selects nearest workflow = ([], some read)) (htargets : checkRunnerFanout read = []) :
    ReadWhole workflow read ↔ NothingLost workflow := by
  obtain ⟨hauthored, hreach, rfl, hcheck⟩ := judged_accepts h
  unfold check at hcheck
  simp only [List.append_eq_nil_iff] at hcheck
  obtain ⟨⟨⟨⟨hdeclared, -⟩, -⟩, -⟩, hmodes⟩ := hcheck
  have hdistinct : ((expandRunnerFanout workflow).iterNodes.map (·.id)).Nodup := by
    rw [← read_ids]
    exact distinct_of_declaredOnce hdeclared
  constructor
  · intro hwhole
    have hnamed := named_iff.mp hwhole.named
    have hwaits := (waits_iff hauthored hdistinct).mp hwhole.waits
    have hincludes := includes_iff.mp hwhole.includes
    exact
      { targets := fun top htop target htarget _ => (hnamed top htop).2.1 target htarget
        waits := fun top htop dep hdep _ => (hnamed top htop).1 dep hdep
        nested := fun top htop node hnode =>
          ⟨(hnamed top htop).2.2 node hnode, (hwaits top htop).2 node hnode⟩
        apart := by
          rintro id (⟨top, htop, hdep⟩ | hincluded)
          · exact (hwaits top htop).1 id hdep
          · exact hincludes id hincluded }
  · intro hnothing
    have hreached : ∀ top ∈ workflow.nodes, ∀ ref ∈ references top,
        Survives workflow ref ∨ FannedOut workflow ref ∨ GroupSibling workflow ref :=
      fun top htop ref href => survives_or (mem_nodesRun hreach htop ref href)
    exact
      { named := by
          refine named_iff.mpr fun top htop => ⟨fun dep hdep => ?_, fun target htarget => ?_, ?_⟩
          · rcases hreached top htop dep (List.mem_append_left _ hdep) with hstays | hfans | hgroup
            · exact .inr hstays
            · exact .inl hfans
            · exact hnothing.waits top htop dep hdep hgroup
          · rcases hreached top htop target (List.mem_append_right _ htarget) with hstays | hlost
            · exact hstays
            · exact hnothing.targets top htop target htarget hlost
          · exact fun node hnode => (hnothing.nested top htop node hnode).1
        included := by
          rintro id ⟨modes, hsome, mode, ids, hmem, hid⟩
          unfold modesStillRun at hmodes
          rw [hsome] at hmodes
          have htop := included_of_modesFrom hmodes mode ids hmem id hid
          exact ((sublist_nodesAndNested _).map _).subset htop
        waits := (waits_iff hauthored hdistinct).mpr fun top htop =>
          ⟨fun dep hdep => hnothing.apart dep (.inl ⟨top, htop, hdep⟩),
            fun node hnode => (hnothing.nested top htop node hnode).2⟩
        includes := includes_iff.mpr fun id hincluded => hnothing.apart id (.inr hincluded)
        once := spread_nodup hdistinct
        implied := by
          intro fanned hfanned node hnode hid
          rw [iterNodes_settled] at hnode
          obtain ⟨other, hother, rfl⟩ := List.mem_map.mp hnode
          rw [settle_id] at hid
          obtain rfl := eq_of_id hdistinct hother hfanned hid
          exact settle_dependsOn other }

end

/-! ## A review two runners give -/

theorem judged_of_clean {selects : ScopeGlob → String → Bool}
    {nearest : NodeId → List NodeId → Option NodeId} {workflow : Workflow}
    (hauthored : authoredFanOut workflow = []) (hreach : referencesReach nearest workflow = [])
    (hcheck : check selects (expandImplicitDependencies (expandRunnerFanout workflow)) = []) :
    judged selects nearest workflow =
      ([], some (expandImplicitDependencies (expandRunnerFanout workflow))) := by
  unfold judged
  rw [hauthored, hreach]
  show (check selects (expandImplicitDependencies (expandRunnerFanout workflow)), some _) = _
  rw [hcheck]

/-- A review fanned out over two runners, and what waits for it, under a mode that names both. -/
def fannedReview : Workflow where
  nodes :=
    [{ id := "review", kind := .prompt, runners := ["first", "second"] },
     { id := "ship", kind := .pullRequest, dependsOn := ["review"] }]
  modes := some [("full", .nodes ["review", "ship"])]

/-- What waits for the review waits for both siblings, and the mode names them. -/
theorem read_whole_fanned : ∃ read,
    judged (fun _ _ => false) (fun _ _ => none) fannedReview = ([], some read) ∧
      ReadWhole fannedReview read := by
  have hjudged := @judged_of_clean (fun _ _ => false) (fun _ _ => none) fannedReview
    (by decide +kernel) (by decide +kernel) (by decide +kernel)
  have hplain : ∀ top ∈ fannedReview.nodes,
      (targets top).isEmpty = true ∧ (kindNested top.kind).isEmpty = true := by
    decide +kernel
  have hchildren : ∀ top ∈ fannedReview.nodes, ∀ node, node ∉ kindNested top.kind := by
    intro top htop node hnode
    rw [List.isEmpty_iff.mp (hplain top htop).2] at hnode
    exact List.not_mem_nil hnode
  have hnothing : NothingLost fannedReview :=
    { targets := by
        intro top htop target htarget
        rw [List.isEmpty_iff.mp (hplain top htop).1] at htarget
        exact absurd htarget List.not_mem_nil
      waits := by
        rintro top htop dep hdep ⟨group, hgroup, node, hnode, -⟩
        exact absurd hnode (hchildren group hgroup node)
      nested := fun top htop node hnode => absurd hnode (hchildren top htop node)
      apart := by
        have hall : ∀ id ∈ ["review", "ship"], (fansOf fannedReview.nodes id).length ≤ 1 := by
          decide +kernel
        have hdeps : ∀ top ∈ fannedReview.nodes, ∀ dep ∈ top.dependsOn, dep ∈ ["review", "ship"] := by
          decide +kernel
        rintro id (⟨top, htop, hdep⟩ | ⟨modes, hsome, mode, ids, hmem, hid⟩)
        · exact hall id (hdeps top htop id hdep)
        · obtain rfl := Option.some.inj hsome
          obtain ⟨-, hids⟩ := Prod.mk.inj (List.mem_singleton.mp hmem)
          obtain rfl := ModeInclude.nodes.inj hids
          exact hall id hid }
  exact ⟨_, hjudged, (read_whole hjudged (checkRunnerFanout_read _)).mpr hnothing⟩

/-- A test that sends control back to the review when it fails. -/
def reroutedReview : Workflow where
  nodes :=
    [{ id := "review", kind := .prompt, runners := ["first", "second"] },
     { id := "test", kind := .bash (.script "make test"), dependsOn := ["review"],
       onFailure := some { goto := "review", maxReroutes := 1 } }]

/-- **The door accepts it, and the test reroutes to a node the graph does not have.** -/
theorem not_read_whole : ∃ read,
    judged (fun _ _ => false) (fun _ _ => none) reroutedReview = ([], some read) ∧
      checkRunnerFanout read = [] ∧ ¬ ReadWhole reroutedReview read := by
  refine ⟨_, judged_of_clean (by decide +kernel) (by decide +kernel) (by decide +kernel),
    checkRunnerFanout_read _, fun hwhole => ?_⟩
  have hlost : ¬ ∀ node ∈ (expandImplicitDependencies (expandRunnerFanout reroutedReview)).iterNodes,
      ∀ ref ∈ references node, ref ∈ (expandImplicitDependencies
        (expandRunnerFanout reroutedReview)).iterNodes.map (·.id) := by
    decide +kernel
  exact hlost hwhole.named

end Yunta.Written
