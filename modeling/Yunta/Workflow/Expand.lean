/-
  What a workflow file implies, made explicit: a fan-out into its siblings, a reference to an
  artifact into the edge it is.

  1. **The fan-out** — `expandRunnerFanout` puts one sibling for each runner where a top-level node
     names several, and rewrites what the other top-level nodes wait on and what the modes include.
     The ids that survive it are those a written node runs under (`mem_fanned_ids`).

  2. **The edges** — `expandImplicitDependencies` makes each node wait on the nodes its reads name,
     nested ones too: `settle`, node by node (`iterNodes_settled`).
-/
import Yunta.Lib.OrdMap
import Yunta.Lib.Saturate
import Yunta.Workflow.Written
import Mathlib.Data.List.Nodup

set_option linter.unusedVariables false

namespace Yunta.Written

/-! ## The fan-out -/

/-- Whether this is a fan-out sibling's id, `<base>@<runner>`. -/
def isFanOut (id : NodeId) : Bool := id.toList.contains '@'

/-- The authored id: the part before `@` for a sibling, the id itself otherwise. -/
def baseStr (id : NodeId) : String := String.ofList (id.toList.takeWhile (· ≠ '@'))

/-- The id of the sibling of `base` that runs under `runner`. -/
def fanOut (base : NodeId) (runner : RunnerName) : NodeId := baseStr base ++ "@" ++ runner

/-- The ids of the siblings a node's `runners:` generates. -/
def siblings (node : Node) : List NodeId := node.runners.map (fanOut node.id)

/-- What a fanned-out id becomes: of two nodes of one id, what the last one does. -/
def expansion (workflow : Workflow) : OrdMap NodeId (List NodeId) :=
  workflow.nodes.foldl (fun expansion node =>
    if node.runners.isEmpty then expansion else expansion.insert node.id (siblings node)) ∅

/-- One node for each of its runners; itself where it names none. -/
def copies (node : Node) : List Node :=
  if node.runners.isEmpty then [node]
  else node.runners.map fun runner =>
    { node with id := fanOut node.id runner, runner := some runner, runners := [] }

/-- What stands for one id a list names. -/
def entry (workflow : Workflow) (id : NodeId) : List NodeId :=
  ((expansion workflow)[id]?).getD [id]

/-- A list of ids, each fanned-out one replaced by its siblings. -/
def rewired (workflow : Workflow) (ids : List NodeId) : List NodeId :=
  ids.flatMap (entry workflow)

def rewire (workflow : Workflow) (node : Node) : Node :=
  { node with dependsOn := rewired workflow node.dependsOn }

def rewireInclude (rewired : List NodeId → List NodeId) : ModeInclude → ModeInclude
  | .all => .all
  | .nodes ids => .nodes (rewired ids)

/-- A node with `runners: [a, b]` becomes one node for each, before anything runs. -/
def expandRunnerFanout (workflow : Workflow) : Workflow :=
  { workflow with
    nodes := (workflow.nodes.flatMap copies).map (rewire workflow)
    modes := workflow.modes.map fun modes =>
      modes.map fun mode => (mode.1, rewireInclude (rewired workflow) mode.2) }

/-! ## The edges -/

/-- The nodes a node's artifact reads name. -/
def readNodes (node : Node) : List NodeId := (artifactReads node).filterMap (·.node)

/-- A node made to wait on what its reads name, behind what it waits on already. -/
def waitOnReads (node : Node) : Node :=
  { node with dependsOn := Saturate.addAll node.dependsOn (readNodes node) }

mutual

/-- A node and those nested in it, each made to wait on what its reads name. -/
def settle : Node → Node
  | ⟨id, kind, deps, scope, runner, runners, produces, before, after, onFailure, context,
      invariant, optional⟩ =>
    waitOnReads ⟨id, settleKind kind, deps, scope, runner, runners, produces, before, after,
      onFailure, context, invariant, optional⟩

def settleKind : NodeKind → NodeKind
  | .parallel nodes => .parallel (settleAll nodes)
  | kind => kind

def settleAll : List Node → List Node
  | [] => []
  | node :: rest => settle node :: settleAll rest

end

/-- Each artifact a node names of another node orders it behind that node. -/
def expandImplicitDependencies (workflow : Workflow) : Workflow :=
  { workflow with nodes := settleAll workflow.nodes }

/-! ## The edges, node by node -/

theorem settleAll_eq (nodes : List Node) : settleAll nodes = nodes.map settle := by
  induction nodes with
  | nil => rfl
  | cons first rest ih => rw [settleAll, ih, List.map_cons]

@[simp] theorem settle_id (node : Node) : (settle node).id = node.id := by
  cases node
  rfl

@[simp] theorem settle_onFailure (node : Node) : (settle node).onFailure = node.onFailure := by
  cases node
  rfl

@[simp] theorem settle_kind (node : Node) : (settle node).kind = settleKind node.kind := by
  cases node
  rfl

@[simp] theorem settle_context (node : Node) : (settle node).context = node.context := by
  cases node
  rfl

@[simp] theorem settleKind_reads (kind : NodeKind) : (settleKind kind).reads = kind.reads := by
  cases kind <;> rfl

@[simp] theorem readNodes_settle (node : Node) : readNodes (settle node) = readNodes node := by
  simp [readNodes, artifactReads]

theorem settle_dependsOn (node : Node) :
    (settle node).dependsOn = Saturate.addAll node.dependsOn (readNodes node) := by
  have hreads := readNodes_settle node
  cases node
  show Saturate.addAll _ _ = _
  rw [← hreads]
  rfl

mutual

theorem nodeAndNested_settle (node : Node) :
    nodeAndNested (settle node) = (nodeAndNested node).map settle := by
  rw [nodeAndNested_eq, nodeAndNested_eq, List.map_cons, settle_kind]
  obtain ⟨id, kind, deps, scope, runner, runners, produces, before, after, onFailure, context,
    invariant, optional⟩ := node
  rw [kindNested_settle kind]

theorem kindNested_settle (kind : NodeKind) :
    kindNested (settleKind kind) = (kindNested kind).map settle := by
  cases kind with
  | parallel nodes => exact nodesAndNested_settle nodes
  | _ => rfl

theorem nodesAndNested_settle (nodes : List Node) :
    nodesAndNested (settleAll nodes) = (nodesAndNested nodes).map settle := by
  cases nodes with
  | nil => rfl
  | cons first rest =>
    rw [settleAll, nodesAndNested, nodesAndNested, nodeAndNested_settle first,
      nodesAndNested_settle rest, List.map_append]

end

/-- **The second pass changes each node where it stands.** -/
theorem iterNodes_settled (workflow : Workflow) :
    (expandImplicitDependencies workflow).iterNodes = workflow.iterNodes.map settle :=
  nodesAndNested_settle workflow.nodes

/-! ## What the fan-out leaves -/

section
variable {workflow : Workflow}

/-- The ids a top-level node runs under. -/
def runIds (node : Node) : List NodeId :=
  if node.runners.isEmpty then [node.id] else siblings node

/-- The nodes a list holds that a fan-out replaces, of one id. -/
def fansOf (nodes : List Node) (id : NodeId) : List Node :=
  nodes.filter fun node => !node.runners.isEmpty && node.id = id

/-- An id of a top-level node that names several runners. -/
def FannedOut (workflow : Workflow) (id : NodeId) : Prop := fansOf workflow.nodes id ≠ []

/-- An id some node of the graph has once the fan-outs are expanded. -/
def Survives (workflow : Workflow) (id : NodeId) : Prop :=
  ∃ top ∈ workflow.nodes, id ∈ runIds top ∨ ∃ node ∈ kindNested top.kind, node.id = id

theorem copies_ids (node : Node) : (copies node).map (·.id) = runIds node := by
  unfold copies runIds siblings
  split
  · rfl
  · rw [List.map_map]
    rfl

theorem copies_ne_nil (node : Node) : copies node ≠ [] := by
  unfold copies
  split
  · exact List.cons_ne_nil _ _
  · next h => simpa using h

theorem copies_kind {node copy : Node} (h : copy ∈ copies node) : copy.kind = node.kind := by
  unfold copies at h
  split at h
  · obtain rfl := List.mem_singleton.mp h
    rfl
  · obtain ⟨runner, -, rfl⟩ := List.mem_map.mp h
    rfl

theorem copies_dependsOn {node copy : Node} (h : copy ∈ copies node) :
    copy.dependsOn = node.dependsOn := by
  unfold copies at h
  split at h
  · obtain rfl := List.mem_singleton.mp h
    rfl
  · obtain ⟨runner, -, rfl⟩ := List.mem_map.mp h
    rfl

theorem mem_fanned {node : Node} :
    node ∈ (expandRunnerFanout workflow).nodes ↔
      ∃ top ∈ workflow.nodes, ∃ copy ∈ copies top, rewire workflow copy = node := by
  show node ∈ (workflow.nodes.flatMap copies).map (rewire workflow) ↔ _
  simp only [List.mem_map, List.mem_flatMap]
  constructor
  · rintro ⟨copy, ⟨top, htop, hcopy⟩, rfl⟩
    exact ⟨top, htop, copy, hcopy, rfl⟩
  · rintro ⟨top, htop, copy, hcopy, rfl⟩
    exact ⟨copy, ⟨top, htop, hcopy⟩, rfl⟩

/-- **A node of the graph is a copy of a written top-level one, rewired, or one nested in such, as
    it was written.** -/
theorem mem_iterNodes_fanned {node : Node} :
    node ∈ (expandRunnerFanout workflow).iterNodes ↔ ∃ top ∈ workflow.nodes,
      (∃ copy ∈ copies top, rewire workflow copy = node) ∨ node ∈ kindNested top.kind := by
  unfold Workflow.iterNodes
  rw [mem_nodesAndNested]
  constructor
  · rintro ⟨fanned, hfanned, hnode⟩
    obtain ⟨top, htop, copy, hcopy, rfl⟩ := mem_fanned.mp hfanned
    rw [nodeAndNested_eq] at hnode
    rcases List.mem_cons.mp hnode with rfl | hnested
    · exact ⟨top, htop, .inl ⟨copy, hcopy, rfl⟩⟩
    · refine ⟨top, htop, .inr ?_⟩
      rw [← copies_kind hcopy]
      exact hnested
  · rintro ⟨top, htop, ⟨copy, hcopy, rfl⟩ | hnested⟩
    · exact ⟨_, mem_fanned.mpr ⟨top, htop, copy, hcopy, rfl⟩, self_mem_nodeAndNested _⟩
    · obtain ⟨copy, hcopy⟩ := List.exists_mem_of_ne_nil _ (copies_ne_nil top)
      refine ⟨_, mem_fanned.mpr ⟨top, htop, copy, hcopy, rfl⟩, ?_⟩
      rw [nodeAndNested_eq]
      refine List.mem_cons_of_mem _ ?_
      show node ∈ kindNested copy.kind
      rw [copies_kind hcopy]
      exact hnested

/-- **The ids of the expanded graph are those that survive.** -/
theorem mem_fanned_ids {id : NodeId} :
    id ∈ (expandRunnerFanout workflow).iterNodes.map (·.id) ↔ Survives workflow id := by
  rw [List.mem_map]
  constructor
  · rintro ⟨node, hnode, rfl⟩
    obtain ⟨top, htop, ⟨copy, hcopy, rfl⟩ | hnested⟩ := mem_iterNodes_fanned.mp hnode
    · refine ⟨top, htop, .inl ?_⟩
      rw [← copies_ids]
      show copy.id ∈ _
      exact List.mem_map_of_mem hcopy
    · exact ⟨top, htop, .inr ⟨node, hnested, rfl⟩⟩
  · rintro ⟨top, htop, hrun | ⟨node, hnested, rfl⟩⟩
    · rw [← copies_ids] at hrun
      obtain ⟨copy, hcopy, rfl⟩ := List.mem_map.mp hrun
      exact ⟨_, mem_iterNodes_fanned.mpr ⟨top, htop, .inl ⟨copy, hcopy, rfl⟩⟩, rfl⟩
    · exact ⟨node, mem_iterNodes_fanned.mpr ⟨top, htop, .inr hnested⟩, rfl⟩

/-! ## What a rewired id becomes -/

/-- All the siblings of the nodes of `id`, where it is fanned out; `id` itself where it is not. -/
def spread (workflow : Workflow) (id : NodeId) : List NodeId :=
  if fansOf workflow.nodes id = [] then [id] else (fansOf workflow.nodes id).flatMap siblings

/-- The expansion holds what the last fan-out of an id generates. -/
theorem getElem?_expansion (id : NodeId) :
    (expansion workflow)[id]? = (fansOf workflow.nodes id).getLast?.map siblings := by
  have hfold : ∀ (nodes : List Node) (held : OrdMap NodeId (List NodeId)),
      (nodes.foldl (fun expansion node =>
        if node.runners.isEmpty then expansion else expansion.insert node.id (siblings node))
        held)[id]? = ((fansOf nodes id).getLast?.map siblings).or held[id]? := by
    intro nodes
    induction nodes with
    | nil => exact fun held => rfl
    | cons first rest ih =>
      intro held
      rw [List.foldl_cons, ih]
      by_cases hplain : first.runners.isEmpty = true
      · simp [fansOf, hplain]
      · by_cases hid : first.id = id
        · subst hid
          have hfirst : fansOf (first :: rest) first.id = first :: fansOf rest first.id := by
            simp [fansOf, hplain]
          rw [if_neg hplain, hfirst, OrdMap.getElem?_insert_eq, if_pos rfl]
          rcases hlast : (fansOf rest first.id).getLast? with _ | last
          · have hnil := List.getLast?_eq_none_iff.mp hlast
            rw [hnil]
            rfl
          · have hne : fansOf rest first.id ≠ [] := by
              rintro hnil
              rw [hnil] at hlast
              cases hlast
            rw [List.getLast?_cons_of_ne_nil hne, hlast]
            rfl
        · have hrest : fansOf (first :: rest) id = fansOf rest id := by simp [fansOf, hid]
          rw [if_neg hplain, hrest, OrdMap.getElem?_insert_eq, if_neg hid]
  rw [expansion, hfold]
  simp

theorem entry_eq (id : NodeId) :
    entry workflow id = ((fansOf workflow.nodes id).getLast?.map siblings).getD [id] := by
  rw [entry, getElem?_expansion]

theorem siblings_ne_nil {id : NodeId} {node : Node} (h : node ∈ fansOf workflow.nodes id) :
    siblings node ≠ [] := by
  have hruns := (Bool.and_eq_true_iff.mp (List.mem_filter.mp h).2).1
  unfold siblings
  simpa using hruns

theorem length_le_flatMap {α β : Type} (f : α → List β) {x : α} {xs : List α} (h : x ∈ xs) :
    (f x).length ≤ (xs.flatMap f).length := by
  obtain ⟨before, after, rfl⟩ := List.append_of_mem h
  rw [List.flatMap_append, List.flatMap_cons, List.length_append, List.length_append]
  omega

theorem entry_length_le (id : NodeId) : (entry workflow id).length ≤ (spread workflow id).length := by
  rw [entry_eq, spread]
  by_cases hfans : fansOf workflow.nodes id = []
  · simp [hfans]
  · rw [if_neg hfans, List.getLast?_eq_some_getLast hfans]
    exact length_le_flatMap siblings (List.getLast_mem hfans)

/-- **What replaces an id is all its siblings exactly where no two fan-outs share it.** -/
theorem entry_eq_spread_iff {id : NodeId} :
    entry workflow id = spread workflow id ↔ (fansOf workflow.nodes id).length ≤ 1 := by
  rw [entry_eq, spread]
  rcases hfans : fansOf workflow.nodes id with _ | ⟨first, _ | ⟨second, rest⟩⟩
  · simp
  · simp
  · have hfirst : siblings first ≠ [] :=
      siblings_ne_nil (hfans ▸ List.mem_cons_self : first ∈ fansOf workflow.nodes id)
    have hpos := List.length_pos_iff.mpr hfirst
    have hlast : (first :: second :: rest).getLast? =
        some ((second :: rest).getLast (List.cons_ne_nil _ _)) := by
      rw [List.getLast?_cons_cons, List.getLast?_eq_some_getLast (List.cons_ne_nil _ _)]
    have hless := length_le_flatMap siblings (List.getLast_mem (List.cons_ne_nil second rest))
    constructor
    · intro h
      rw [hlast, if_neg (List.cons_ne_nil _ _), List.flatMap_cons] at h
      have hlength := congrArg List.length h
      rw [Option.map_some, Option.getD_some, List.length_append] at hlength
      omega
    · intro h
      rw [List.length_cons, List.length_cons] at h
      omega

/-- Two ways to replace ids one by one that come to the same list, neither shorter anywhere, agree
    on every id. -/
theorem flatMap_eq_iff {α β : Type} {f g : α → List β} (hle : ∀ x, (f x).length ≤ (g x).length)
    {xs : List α} : xs.flatMap f = xs.flatMap g ↔ ∀ x ∈ xs, f x = g x := by
  induction xs with
  | nil => simp
  | cons x xs ih =>
    rw [List.flatMap_cons, List.flatMap_cons, List.forall_mem_cons]
    constructor
    · intro h
      have hrest : ∀ xs : List α, (xs.flatMap f).length ≤ (xs.flatMap g).length := by
        intro xs
        induction xs with
        | nil => exact Nat.le_refl _
        | cons y ys ih =>
          have hy := hle y
          rw [List.flatMap_cons, List.flatMap_cons, List.length_append, List.length_append]
          omega
      have hlength := congrArg List.length h
      have hx := hle x
      have hxs := hrest xs
      rw [List.length_append, List.length_append] at hlength
      obtain ⟨hhead, htail⟩ := List.append_inj h (by omega)
      exact ⟨hhead, ih.mp htail⟩
    · rintro ⟨hhead, htail⟩
      rw [hhead, ih.mpr htail]

end

end Yunta.Written
