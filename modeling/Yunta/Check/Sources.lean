/-
  Where what a node reads comes from, asked of the graph before a run exists: the tasks document a
  loop works through, an artifact asked of the run whoever produced it.

  1. **The graphs a run can be** — one variant for each mode, `variants`; what a run in a mode reaches
     once the config has left its nodes out, `reachedNodes`.

  2. **The check** — `checkReads` asks of each read of a variant where it can be answered from: the
     run's birth, another node, or only the work of an earlier mode.  `checkModeStart` asks it of one
     mode, for a run that holds nothing an earlier mode made.

  3. **Main result** — the check reads the graph of the mode, and the config narrows it afterwards.
     What it let through is answered in the run exactly when every source the config leaves out is
     made up for by one it keeps (`reads_answered`).
-/
import Yunta.Workflow.Optional

set_option linter.unusedVariables false

namespace Yunta.Written

/-! ## The graphs a run can be -/

/-- The top-level nodes `mode` makes schedulable; none when nothing narrows the graph. -/
def modeIncludedNodes (workflow : Workflow) (mode : ModeName) : Option (List NodeId) :=
  match workflow.modes.bind (·.lookup mode) with
  | some (.nodes ids) => some ids
  | _ => none

/-- The top-level nodes a run schedules: what its mode includes, less what it left out. -/
def includedNodes (workflow : Workflow) (mode : ModeName) (left : List LeftOut) :
    Option (List NodeId) :=
  let byMode := modeIncludedNodes workflow mode
  if left.isEmpty then byMode
  else
    let included := byMode.getD (workflow.nodes.map (·.id))
    some (included.filter fun id => !(left.map (·.node)).contains id)

/-- Every node a run in `mode` reaches. -/
def reachedNodes (workflow : Workflow) (mode : ModeName) (left : List LeftOut) : List Node :=
  workflow.iterNodesUnder (includedNodes workflow mode left)

/-- `node` is `top`, a top-level node `mode` includes, or is nested in it. -/
def Stands (workflow : Workflow) (mode : ModeName) (top node : Node) : Prop :=
  top ∈ workflow.nodes ∧ isIncluded (modeIncludedNodes workflow mode) top.id = true ∧
    node ∈ nodeAndNested top

/-- A node of the mode the config does not leave out. -/
def Kept (workflow : Workflow) (config : ConfigLayer) (mode : ModeName) (node : Node) : Prop :=
  ∃ top, Stands workflow mode top node ∧ ¬ Gone workflow config top.id

theorem isIncluded_includedNodes {workflow : Workflow} {mode : ModeName} {left : List LeftOut}
    {top : Node} (htop : top ∈ workflow.nodes) :
    isIncluded (includedNodes workflow mode left) top.id = true ↔
      isIncluded (modeIncludedNodes workflow mode) top.id = true ∧
        top.id ∉ left.map (·.node) := by
  unfold includedNodes
  rcases left with _ | ⟨first, rest⟩
  · simp
  · rcases hmode : modeIncludedNodes workflow mode with _ | ids
    · have hid : top.id ∈ workflow.nodes.map (·.id) := List.mem_map_of_mem htop
      simp only [List.isEmpty_cons, Bool.false_eq_true, if_false, isIncluded, Option.all_some,
        Option.getD_none, List.contains_iff_mem, List.mem_filter, Option.all_none, true_and]
      simp [hid]
    · simp [isIncluded]

theorem mem_reachedNodes {workflow : Workflow} {config : ConfigLayer} {mode : ModeName}
    {node : Node} :
    node ∈ reachedNodes workflow mode (leftOut workflow config) ↔ Kept workflow config mode node := by
  unfold reachedNodes
  rw [Workflow.mem_iterNodesUnder]
  constructor
  · rintro ⟨top, htop, hincluded, hnode⟩
    obtain ⟨hmode, hleft⟩ := (isIncluded_includedNodes htop).mp hincluded
    exact ⟨top, ⟨htop, hmode, hnode⟩, fun hgone => hleft (mem_leftOut.mpr hgone)⟩
  · rintro ⟨top, ⟨htop, hmode, hnode⟩, hstays⟩
    have hincluded := (isIncluded_includedNodes htop).mpr
      ⟨hmode, fun hleft => hstays (mem_leftOut.mp hleft)⟩
    exact ⟨top, htop, hincluded, hnode⟩

/-- What a run holds before any node of its own runs: the documents its inputs bring, and what the
    node that composed it mounts, each under the name the child holds it by. -/
structure Birth where
  held : List ArtifactId

def refIdentity : ArtifactRefId → ArtifactId
  | .kind kind => .interpreted kind
  | .name name => .named name

def MountSpec.identity (mount : MountSpec) : ArtifactId :=
  match mount.rename with
  | some name => .named name
  | none => refIdentity mount.id

def Birth.of (workflow : Workflow) (mounts : List MountSpec) : Birth where
  held :=
    (workflow.inputs.filterMap fun spec =>
      match spec with
      | .document kind => some (.interpreted kind)
      | .value => none) ++ mounts.map MountSpec.identity

def Birth.holds (birth : Birth) (wanted : ArtifactId) : Bool := birth.held.contains wanted

/-- One graph a run of this workflow can be: the mode, the nodes it keeps, and those the modes
    declared before it keep. -/
structure Variant where
  mode : Option ModeName
  nodes : List Node
  earlier : List Node

/-- Keeps `node` unless one of its id is kept already. -/
def keepOnce (kept : List Node) (node : Node) : List Node :=
  if kept.any (·.id = node.id) then kept else kept ++ [node]

/-- One variant for each mode, after those that keep `earlier`. -/
def modeVariants (workflow : Workflow) : List Node → List ModeName → List Variant
  | _, [] => []
  | earlier, mode :: rest =>
    let nodes := workflow.iterNodesUnder (modeIncludedNodes workflow mode)
    ⟨some mode, nodes, earlier⟩ :: modeVariants workflow (nodes.foldl keepOnce earlier) rest

def variants (workflow : Workflow) : List Variant :=
  match workflow.modes with
  | none => [⟨none, workflow.iterNodesUnder none, []⟩]
  | some modes => modeVariants workflow [] (modes.map Prod.fst)

/-! ## The check -/

/-- Where in the workflow a read is written. -/
inductive Place where
  | read (node : NodeId) (read : ReadSite)
  | loopTasks (node : NodeId)
  | externalGate (node : NodeId)
  | field (node : NodeId) (field : String)
  deriving DecidableEq

/-- A read nothing in the run can answer: what it asks for, and who asks. -/
inductive Unanswerable where
  | loopWithoutTasks (node : NodeId) (mode : Option ModeName)
  | artifactFromNowhere (place : Place) (artifact : ArtifactId) (mode : Option ModeName)
  | sourceLeftOut (place : Place) (from_ : NodeId) (mode : ModeName)
  deriving DecidableEq

inductive PromotedRead where
  | artifact (artifact : ArtifactId)
  | source (source : NodeId)
  deriving DecidableEq

inductive Caution where
  | readOnlyThroughPromotion (place : Place) (what : PromotedRead) (mode : ModeName)
  deriving DecidableEq

inductive Finding where
  | error (error : Unanswerable)
  | warning (warning : Caution)
  deriving DecidableEq

/-- Where a read is answered from, in one variant. -/
inductive Reach where
  /-- The run's birth, or a node the mode keeps. -/
  | here
  /-- Only a node an earlier mode keeps. -/
  | promoted
  | nowhere
  deriving DecidableEq

/-- Whether a text opens a template: its braces hold a variable, or it does not parse. -/
def opensTemplate : List Char → Bool
  | '\x7b' :: '\x7b' :: _ => true
  | _ :: rest => opensTemplate rest
  | [] => false

def literal (text : String) : Bool := !opensTemplate text.toList

/-- Whether an artifact is named as written, rather than with a template only the run renders. -/
def literalId : ArtifactId → Bool
  | .interpreted _ => true
  | .named name => literal name

def declares (node : Node) (wanted : ArtifactId) : Bool := node.produces.contains wanted

/-- Whether `node` can hand `wanted` over: it declares it, it runs a child that may hand anything
    over, or the answers are to what it asks. -/
def supplies (wanted : ArtifactId) (node : Node) : Bool :=
  (match node.kind with
    | .workflow _ => true
    | _ => false) ||
  declares node wanted || (wanted = .interpreted .answers && asks node)

/-- Where `wanted` can come from for `reader` in `variant`: birth, or a node other than the
    reader. -/
def reach (wanted : ArtifactId) (reader : Node) (variant : Variant) (birth : Birth) : Reach :=
  let answers := fun nodes : List Node =>
    (nodes.filter fun node => node.id ≠ reader.id).any (supplies wanted)
  if birth.holds wanted || answers variant.nodes then .here
  else if answers variant.earlier then .promoted
  else .nowhere

/-- The references of an external gate, which hands over artifacts of the run. -/
def gateReferences (node : Node) : List (Place × ArtifactId) :=
  match node.kind with
  | .gate _ _ (some artifacts) =>
    (artifacts.filter literalId).map fun id => (.externalGate node.id, id)
  | _ => []

/-- Every reference `node` makes to the run's artifact of an identity, whichever node produced it.
    A gate that shows the run's findings shows a view the log derives, whatever node reported. -/
def runReferences (node : Node) : List (Place × ArtifactId) :=
  (((artifactReads node).filter fun read =>
      read.node.isNone && literalId (refIdentity read.id) &&
        !(read.site = .shows && refIdentity read.id = .interpreted .findings)).map
    fun read => (.read node.id read.site, refIdentity read.id)) ++ gateReferences node

/-- The tasks document a loop reads before its first session. -/
def loopTasks (node : Node) : List (Place × ArtifactId) :=
  match node.kind with
  | .loop => [(.loopTasks node.id, .interpreted .tasks)]
  | _ => []

/-- Every read of `node` whose answer does not depend on order. -/
def runReads (node : Node) : List (Place × ArtifactId) := loopTasks node ++ runReferences node

def isLoop (node : Node) : Bool :=
  match node.kind with
  | .loop => true
  | _ => false

/-- What the check finds of one read. -/
def readFound (variant : Variant) (birth : Birth) (node : Node) (place : Place)
    (wanted : ArtifactId) : List Finding :=
  match reach wanted node variant birth with
  | .here => []
  | .promoted =>
    [.warning (.readOnlyThroughPromotion place (.artifact wanted) (variant.mode.getD "default"))]
  | .nowhere =>
    if isLoop node && wanted = .interpreted .tasks then
      [.error (.loopWithoutTasks node.id variant.mode)]
    else [.error (.artifactFromNowhere place wanted variant.mode)]

/-- What the check finds of a source read by name that the mode leaves out. -/
def sourceFound (variant : Variant) (mode : ModeName) (starting : Bool) (node : Node)
    (read : String × NodeId) : List Finding :=
  let kept := fun nodes : List Node => nodes.any (·.id = read.2)
  if kept variant.nodes then []
  else if kept variant.earlier then
    [.warning (.readOnlyThroughPromotion (.field node.id read.1) (.source read.2) mode)]
  else if starting then [.error (.sourceLeftOut (.field node.id read.1) read.2 mode)]
  else []

def nodeFound (variant : Variant) (birth : Birth) (starting : Bool) (node : Node) : List Finding :=
  ((runReads node).flatMap fun read => readFound variant birth node read.1 read.2) ++
    match variant.mode with
    | some mode => (readSources node).flatMap (sourceFound variant mode starting node)
    | none => []

/-- The variant as a run about to start in `start` meets it: it holds nothing an earlier mode
    made. -/
def startedIn (start : Option ModeName) (variant : Variant) : Option Variant :=
  match start with
  | none => some variant
  | some _ => if variant.mode = start then some { variant with earlier := [] } else none

structure Reads where
  errors : List Unanswerable
  warnings : List Caution

/-- What the read rules find: the reads nothing can answer, and those only a promotion does. -/
def checkReads (workflow : Workflow) (birth : Birth) (start : Option ModeName) : Reads :=
  let found := ((variants workflow).filterMap (startedIn start)).flatMap fun variant =>
    variant.nodes.flatMap (nodeFound variant birth start.isSome)
  { errors := found.filterMap fun
      | .error error => some error
      | .warning _ => none
    warnings := found.filterMap fun
      | .error _ => none
      | .warning warning => some warning }

/-- What starting a run in `mode`, fresh, would meet.  Nothing for a mode not declared. -/
def checkModeStart (workflow : Workflow) (mode : ModeName) : List Unanswerable :=
  if workflow.modes.all fun modes => !(modes.map Prod.fst).contains mode then []
  else (checkReads workflow (Birth.of workflow []) (some mode)).errors

/-- The read errors that refuse a run started in `mode`: those of the mode, or of the whole check
    where the workflow declares none. -/
def startErrors (workflow : Workflow) (mode : ModeName) : List Unanswerable :=
  match workflow.modes with
  | none => (checkReads workflow (Birth.of workflow []) none).errors
  | some _ => checkModeStart workflow mode

/-! ## What passes the check -/

/-- A mode a run can start in: one the workflow declares, any where it declares none.  A run in
    another is refused as it is created. -/
def Startable (workflow : Workflow) (mode : ModeName) : Prop :=
  ∀ modes, workflow.modes = some modes → mode ∈ modes.map Prod.fst

theorem mem_modeVariants (workflow : Workflow) (earlier : List Node) {mode : ModeName}
    {modes : List ModeName} (h : mode ∈ modes) :
    ∃ before, ⟨some mode, workflow.iterNodesUnder (modeIncludedNodes workflow mode), before⟩ ∈
      modeVariants workflow earlier modes := by
  induction modes generalizing earlier with
  | nil => exact absurd h List.not_mem_nil
  | cons first rest ih =>
    rcases List.mem_cons.mp h with rfl | hrest
    · exact ⟨earlier, List.mem_cons_self⟩
    · obtain ⟨before, hbefore⟩ := ih _ hrest
      exact ⟨before, List.mem_cons_of_mem _ hbefore⟩

/-- The graph of a mode, as a run that holds no earlier mode's work meets it. -/
def modeVariant (workflow : Workflow) (mode : ModeName) (started : Option ModeName) : Variant :=
  ⟨started, workflow.iterNodesUnder (modeIncludedNodes workflow mode), []⟩

/-- Where the check finds no error, it found none of any node of a variant it read. -/
theorem no_error_found {workflow : Workflow} {birth : Birth} {start : Option ModeName}
    {variant : Variant} (h : (checkReads workflow birth start).errors = [])
    (hvariant : variant ∈ (variants workflow).filterMap (startedIn start)) :
    ∀ node ∈ variant.nodes, ∀ error,
      .error error ∉ nodeFound variant birth start.isSome node := by
  intro node hnode error hfound
  have hall := List.filterMap_eq_nil_iff.mp h
  have hmem : Finding.error error ∈ ((variants workflow).filterMap (startedIn start)).flatMap
      fun variant => variant.nodes.flatMap (nodeFound variant birth start.isSome) :=
    List.mem_flatMap.mpr ⟨variant, hvariant, List.mem_flatMap.mpr ⟨node, hnode, hfound⟩⟩
  exact Option.some_ne_none _ (hall _ hmem)

/-- The graph of the mode is among those the check reads, with no earlier work to answer for it. -/
theorem startErrors_reads {workflow : Workflow} {mode : ModeName} (hmode : Startable workflow mode)
    (h : startErrors workflow mode = []) : ∃ started starting,
      ∀ node ∈ (modeVariant workflow mode started).nodes, ∀ error, .error error ∉
        nodeFound (modeVariant workflow mode started) (Birth.of workflow []) starting node := by
  unfold startErrors at h
  rcases hmodes : workflow.modes with _ | modes
  · rw [hmodes] at h
    have hwhole : modeIncludedNodes workflow mode = none := by simp [modeIncludedNodes, hmodes]
    refine ⟨none, false, no_error_found h ?_⟩
    refine List.mem_filterMap.mpr ⟨modeVariant workflow mode none, ?_, rfl⟩
    simp [variants, hmodes, modeVariant, hwhole]
  · rw [hmodes] at h
    have hdeclared := hmode modes hmodes
    have hstart : (checkReads workflow (Birth.of workflow []) (some mode)).errors = [] := by
      unfold checkModeStart at h
      rw [if_neg] at h
      · exact h
      · rw [hmodes]
        simpa using hdeclared
    obtain ⟨before, hbefore⟩ := mem_modeVariants workflow [] hdeclared
    refine ⟨some mode, true, no_error_found hstart ?_⟩
    have hvariant : ⟨some mode, workflow.iterNodesUnder (modeIncludedNodes workflow mode), before⟩ ∈
        variants workflow := by
      unfold variants
      rw [hmodes]
      exact hbefore
    exact List.mem_filterMap.mpr ⟨_, hvariant, if_pos rfl⟩

theorem answered_of_reach {wanted : ArtifactId} {reader : Node} {variant : Variant} {birth : Birth}
    (hearlier : variant.earlier = []) (h : reach wanted reader variant birth ≠ .nowhere) :
    birth.holds wanted = true ∨
      ∃ other ∈ variant.nodes, other.id ≠ reader.id ∧ supplies wanted other = true := by
  by_cases hhere : (birth.holds wanted ||
      (variant.nodes.filter fun node => node.id ≠ reader.id).any (supplies wanted)) = true
  · rcases Bool.or_eq_true_iff.mp hhere with hborn | hother
    · exact .inl hborn
    · obtain ⟨other, hmem, hsupplies⟩ := List.any_eq_true.mp hother
      obtain ⟨hnode, hid⟩ := List.mem_filter.mp hmem
      exact .inr ⟨other, hnode, of_decide_eq_true hid, hsupplies⟩
  · have hnowhere : reach wanted reader variant birth = .nowhere := by
      unfold reach
      rw [hearlier]
      exact if_neg hhere
    exact absurd hnowhere h

/-- A read nothing reaches is an error. -/
theorem error_of_nowhere (place : Place) {variant : Variant} {birth : Birth} {node : Node}
    {wanted : ArtifactId} (h : reach wanted node variant birth = .nowhere) :
    ∃ error, Finding.error error ∈ readFound variant birth node place wanted := by
  unfold readFound
  rw [h]
  by_cases hloop : (isLoop node && wanted = .interpreted .tasks) = true
  · exact ⟨_, by rw [if_pos hloop]; exact List.mem_singleton.mpr rfl⟩
  · exact ⟨_, by rw [if_neg hloop]; exact List.mem_singleton.mpr rfl⟩

/-- **A read the check lets through is answered in the graph of its mode.** -/
theorem answered_in_mode {workflow : Workflow} {mode : ModeName} (hmode : Startable workflow mode)
    (h : startErrors workflow mode = []) {top node : Node} (hnode : Stands workflow mode top node)
    {read : Place × ArtifactId} (hread : read ∈ runReads node) :
    (Birth.of workflow []).holds read.2 = true ∨
      ∃ source other, Stands workflow mode source other ∧ other.id ≠ node.id ∧
        supplies read.2 other = true := by
  obtain ⟨started, starting, hclean⟩ := startErrors_reads hmode h
  have hmem : node ∈ (modeVariant workflow mode started).nodes :=
    Workflow.mem_iterNodesUnder.mpr ⟨top, hnode⟩
  have hreach : reach read.2 node (modeVariant workflow mode started) (Birth.of workflow []) ≠
      .nowhere := by
    intro hnowhere
    obtain ⟨error, herror⟩ := error_of_nowhere read.1 hnowhere
    refine hclean node hmem error (List.mem_append_left _ ?_)
    exact List.mem_flatMap.mpr ⟨read, hread, herror⟩
  rcases answered_of_reach rfl hreach with hborn | ⟨other, hother, hid, hsupplies⟩
  · exact .inl hborn
  · obtain ⟨source, hsource⟩ := Workflow.mem_iterNodesUnder.mp hother
    exact .inr ⟨source, other, hsource, hid, hsupplies⟩

/-! ## What the run then answers -/

section
variable (workflow : Workflow) (config : ConfigLayer) (mode : ModeName)

/-- Every read of a node the run keeps is answered: the run is born with what it asks for, or another
    node it keeps hands it over. -/
def ReadsAnswered : Prop :=
  ∀ node ∈ reachedNodes workflow mode (leftOut workflow config), ∀ read ∈ runReads node,
    (Birth.of workflow []).holds read.2 = true ∨
      ∃ other ∈ reachedNodes workflow mode (leftOut workflow config),
        other.id ≠ node.id ∧ supplies read.2 other = true

/-- Every source the config leaves out is made up for: where it could have answered a kept node's
    read the run is not born with, a source the config leaves in can as well. -/
def MadeUpFor : Prop :=
  ∀ node, Kept workflow config mode node → ∀ read ∈ runReads node,
    (Birth.of workflow []).holds read.2 = false →
    ∀ top source, Stands workflow mode top source → Gone workflow config top.id →
      source.id ≠ node.id → supplies read.2 source = true →
      ∃ other, Kept workflow config mode other ∧ other.id ≠ node.id ∧
        supplies read.2 other = true

instance : Decidable (ReadsAnswered workflow config mode) :=
  inferInstanceAs (Decidable (∀ node ∈ _, ∀ read ∈ _, _ ∨ ∃ other ∈ _, _ ∧ _))

end

/-- **The reads the check let through are answered in the run exactly when what its config leaves
    out is made up for.** -/
theorem reads_answered {workflow : Workflow} {mode : ModeName} (config : ConfigLayer)
    (hmode : Startable workflow mode) (h : startErrors workflow mode = []) :
    ReadsAnswered workflow config mode ↔ MadeUpFor workflow config mode := by
  constructor
  · intro hanswered node hkept read hread hborn top source _ _ _ _
    rcases hanswered node (mem_reachedNodes.mpr hkept) read hread with hheld | hother
    · rw [hborn] at hheld
      exact absurd hheld Bool.false_ne_true
    · obtain ⟨other, hreached, hid, hsupplies⟩ := hother
      exact ⟨other, mem_reachedNodes.mp hreached, hid, hsupplies⟩
  · intro hmade node hreached read hread
    have hkept := mem_reachedNodes.mp hreached
    obtain ⟨top, hstands, -⟩ := hkept
    by_cases hborn : (Birth.of workflow []).holds read.2 = true
    · exact .inl hborn
    · have hunborn : (Birth.of workflow []).holds read.2 = false := by simpa using hborn
      obtain ⟨source, other, hsource, hid, hsupplies⟩ :=
        (answered_in_mode hmode h hstands hread).resolve_left hborn
      refine .inr ?_
      by_cases hgone : Gone workflow config source.id
      · obtain ⟨instead, hinstead, hne, hhands⟩ := hmade node (mem_reachedNodes.mp hreached) read
          hread hunborn source other hsource hgone hid hsupplies
        exact ⟨instead, mem_reachedNodes.mpr hinstead, hne, hhands⟩
      · exact ⟨other, mem_reachedNodes.mpr ⟨source, hsource, hgone⟩, hid, hsupplies⟩

/-! ## A plan the project cannot make -/

/-- A plan made by a command the project may lack, and the loop that works through it. -/
def optionalPlan : Workflow where
  nodes :=
    [{ id := "plan", kind := .bash (.project "plan"), produces := [.interpreted .tasks],
       optional := true },
     { id := "build", kind := .loop, runner := some "builder", dependsOn := ["plan"] }]

/-- With the project's command declared, the loop has its plan. -/
theorem reads_answered_planned :
    ReadsAnswered optionalPlan { commands := [("plan", "make plan")] } "default" ∧
      MadeUpFor optionalPlan { commands := [("plan", "make plan")] } "default" := by
  have hanswered : ReadsAnswered optionalPlan { commands := [("plan", "make plan")] } "default" := by
    decide +kernel
  refine ⟨hanswered, ?_⟩
  exact (reads_answered _ (fun modes hmodes => by cases hmodes) (by decide +kernel)).mp hanswered

/-- **Without it the plan is left out, and the loop the check let through has no tasks.** -/
theorem not_reads_answered :
    startErrors optionalPlan "default" = [] ∧ mayGo optionalPlan = [] ∧
      ¬ ReadsAnswered optionalPlan {} "default" := by
  decide +kernel

end Yunta.Written
