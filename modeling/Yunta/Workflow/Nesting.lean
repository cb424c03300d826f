/-
  The top-level graph of a workflow file: a node waits on another where it depends on it, or on a
  node its group holds.

  1. **Nesting** — `Nests` says which top-level node an id belongs to.  Where no two nodes of the
     file share an id, it belongs to one (`nests_unique`).

  2. **Waiting** — `Waits` is the graph's edge.
-/
import Yunta.Workflow.Nodes
import Mathlib.Data.List.Lattice
import Mathlib.Data.List.Nodup
import Mathlib.Data.List.Pairwise
import Mathlib.Logic.Relation

set_option linter.unusedVariables false

namespace Yunta

/-- `id` is the top-level node `top`, or a node nested in it. -/
def Workflow.Nests (workflow : Workflow) (top id : NodeId) : Prop :=
  ∃ node ∈ workflow.nodes, node.id = top ∧ ∃ nested ∈ nodeAndNested node, nested.id = id

/-- A top-level node waits on another: on it, or on a node nested in it. -/
def Workflow.Waits (workflow : Workflow) (a b : NodeId) : Prop :=
  ∃ node ∈ workflow.nodes, node.id = a ∧ ∃ dep ∈ node.dependsOn, workflow.Nests b dep

/-- No two nodes of the file share an id, a group's children included. -/
def Workflow.Distinct (workflow : Workflow) : Prop := (workflow.iterNodes.map (·.id)).Nodup

instance (workflow : Workflow) : Decidable workflow.Distinct :=
  inferInstanceAs (Decidable (List.Nodup _))

theorem nodesAndNested_eq (nodes : List Node) :
    nodesAndNested nodes = nodes.flatMap nodeAndNested := by
  induction nodes with
  | nil => rfl
  | cons node rest ih => rw [nodesAndNested, ih, List.flatMap_cons]

/-- A node stands first among the nodes nested in it. -/
theorem self_nested (node : Node) : node ∈ nodeAndNested node := by
  obtain ⟨id, kind, deps, onFailure, onInterrupt, permissions, invariant, scope⟩ := node
  rw [nodeAndNested]
  exact List.mem_cons_self

/-- A gate nests no other node. -/
theorem eq_of_nested_gate {node nested : Node} (hgate : isGate node = true)
    (h : nested ∈ nodeAndNested node) : nested = node := by
  obtain ⟨id, kind, deps, onFailure, onInterrupt, permissions, invariant, scope⟩ := node
  cases kind with
  | gate on shows external =>
    rw [nodeAndNested, kindNested, List.mem_singleton] at h
    · exact h
    · intro nodes hkind
      cases hkind
  | _ => cases hgate

section
variable {workflow : Workflow}

/-- **An id belongs to one top-level node.** -/
theorem top_unique (hdistinct : workflow.Distinct) {a b x y : Node} (ha : a ∈ workflow.nodes)
    (hb : b ∈ workflow.nodes) (hx : x ∈ nodeAndNested a) (hy : y ∈ nodeAndNested b)
    (hid : x.id = y.id) : a = b := by
  by_contra hne
  rw [Workflow.Distinct, Workflow.iterNodes, nodesAndNested_eq, List.map_flatMap] at hdistinct
  have hapart := (List.nodup_flatMap.mp hdistinct).2
  have hsymm : Std.Symm (Function.onFun List.Disjoint fun node : Node =>
      (nodeAndNested node).map (·.id)) := ⟨fun _ _ h => List.Disjoint.symm h⟩
  exact hapart.forall ha hb hne (List.mem_map_of_mem hx) (hid ▸ List.mem_map_of_mem hy)

theorem eq_of_id (hdistinct : workflow.Distinct) {a b : Node} (ha : a ∈ workflow.nodes)
    (hb : b ∈ workflow.nodes) (hid : a.id = b.id) : a = b :=
  top_unique hdistinct ha hb (self_nested a) (self_nested b) hid

theorem nests_self {node : Node} (h : node ∈ workflow.nodes) : workflow.Nests node.id node.id :=
  ⟨node, h, rfl, node, self_nested node, rfl⟩

theorem nests_unique (hdistinct : workflow.Distinct) {a b id : NodeId}
    (ha : workflow.Nests a id) (hb : workflow.Nests b id) : a = b := by
  obtain ⟨node, hnode, rfl, x, hx, rfl⟩ := ha
  obtain ⟨other, hother, rfl, y, hy, hid⟩ := hb
  rw [top_unique hdistinct hnode hother hx hy hid.symm]

end

end Yunta
