/-
  The readers of a workflow's order, and the one graph of the file they all stand for.

  1. **The cycle rule** — `findDependsOnCycle` walks the ids top-level nodes name: it finds a cycle
     exactly where these alone close one (`findDependsOnCycle_isSome_iff`).

  2. **The narrowed graph** — what a mode leaves a kept node waiting on reaches, between kept nodes,
     what the edges it can follow reach (`narrowed_iff`): an edge to a group's child the mode does
     not list is none of them.

  3. **The pairs** — where no two nodes wait on each other, the walk finds every path
     (`reachable_iff`), so the pairs answered are the unordered ones (`mem_pairs_iff`).

  4. **Main result** — `oneGraph_of_straight`: the readers stand for the file's graph where no two
     nodes of it wait on each other, the rule sees a node that waits on itself, and the mode follows
     all its paths (`Straight`).  `not_one_graph` runs the files they part on.
-/
import Yunta.Check.Scopes
import Yunta.Graph.Cycle
import Yunta.Workflow.Inherited

set_option linter.unusedVariables false

namespace Yunta

open Relation (TransGen)

/-! ## The cycle rule -/

/-- A cycle of the ids top-level nodes depend on. -/
def findDependsOnCycle (nodes : List Node) : Option (List NodeId) :=
  Graph.findCycle (nodes.foldl (fun adjacency node => adjacency.insert node.id node.dependsOn)
    (∅ : OrdMap NodeId (List NodeId)))

/-- A top-level node names another as a dependency. -/
def Workflow.Names (workflow : Workflow) (a b : NodeId) : Prop :=
  ∃ node ∈ workflow.nodes, node.id = a ∧ b ∈ node.dependsOn ∧ b ∈ workflow.nodes.map (·.id)

section
variable {workflow : Workflow}

theorem Workflow.Names.waits {a b : NodeId} (h : workflow.Names a b) : workflow.Waits a b := by
  obtain ⟨node, hnode, rfl, hdep, hb⟩ := h
  obtain ⟨other, hother, rfl⟩ := List.mem_map.mp hb
  exact ⟨node, hnode, rfl, other.id, hdep, nests_self hother⟩

/-- What the adjacency holds under an id is what the node of that id declares. -/
theorem adjacency_get (nodes : List Node) (id : NodeId) (start : OrdMap NodeId (List NodeId)) :
    (nodes.foldl (fun adjacency node => adjacency.insert node.id node.dependsOn) start)[id]? =
      ((nodes.reverse.find? (·.id = id)).map (·.dependsOn) <|> start[id]?) := by
  induction nodes generalizing start with
  | nil => simp
  | cons node rest ih =>
    rw [List.foldl_cons, ih, List.reverse_cons, List.find?_append, OrdMap.getElem?_insert_eq]
    cases hrest : rest.reverse.find? (·.id = id) with
    | some other => rfl
    | none =>
      by_cases hid : node.id = id
      · simp [hid]
      · simp [hid]

theorem edge_iff (hdistinct : workflow.Distinct) {a b : NodeId} :
    Graph.Edge (workflow.nodes.foldl (fun adjacency node =>
      adjacency.insert node.id node.dependsOn) (∅ : OrdMap NodeId (List NodeId))) a b ↔
      workflow.Names a b := by
  have hget : ∀ id : NodeId, (workflow.nodes.foldl (fun adjacency node =>
      adjacency.insert node.id node.dependsOn) (∅ : OrdMap NodeId (List NodeId)))[id]? =
      (workflow.byId id).map (·.dependsOn) := by
    intro id
    rw [adjacency_get]
    unfold Workflow.byId
    cases workflow.nodes.reverse.find? (·.id = id) <;> simp
  have hkeys : b ∈ (workflow.nodes.foldl (fun adjacency node =>
      adjacency.insert node.id node.dependsOn) (∅ : OrdMap NodeId (List NodeId))).keys ↔
      b ∈ workflow.nodes.map (·.id) := by
    rw [Std.ExtTreeMap.mem_keys, Std.ExtTreeMap.mem_iff_isSome_getElem?, hget, Option.isSome_map]
    constructor
    · intro h
      obtain ⟨node, hnode⟩ := Option.isSome_iff_exists.mp h
      obtain ⟨hmem, hid⟩ := Workflow.byId_some hnode
      exact List.mem_map.mpr ⟨node, hmem, hid⟩
    · intro h
      obtain ⟨node, hnode, rfl⟩ := List.mem_map.mp h
      exact List.find?_isSome.mpr ⟨node, List.mem_reverse.mpr hnode, by simp⟩
  unfold Graph.Edge
  rw [hget, hkeys]
  constructor
  · rintro ⟨hdep, hb⟩
    cases hby : workflow.byId a with
    | none => simp [hby] at hdep
    | some node =>
      obtain ⟨hmem, hid⟩ := Workflow.byId_some hby
      rw [hby] at hdep
      exact ⟨node, hmem, hid, hdep, hb⟩
  · rintro ⟨node, hnode, rfl, hdep, hb⟩
    have hdeclared := declared_eq hdistinct hnode
    unfold Workflow.declared at hdeclared
    rw [hdeclared]
    exact ⟨hdep, hb⟩

/-- **The cycle rule reports a cycle exactly where the top-level ids close one.** -/
theorem findDependsOnCycle_isSome_iff (hdistinct : workflow.Distinct) :
    (findDependsOnCycle workflow.nodes).isSome ↔ ∃ id, TransGen workflow.Names id id := by
  unfold findDependsOnCycle
  rw [Graph.findCycle_isSome_iff]
  have hsame : Graph.Edge (workflow.nodes.foldl (fun adjacency node =>
      adjacency.insert node.id node.dependsOn) (∅ : OrdMap NodeId (List NodeId))) =
      workflow.Names := by
    funext a b
    exact propext (edge_iff hdistinct)
  rw [hsame]

/-! ## The narrowed graph -/

/-- A node of the file the mode keeps. -/
def Workflow.Keeps (workflow : Workflow) (included : Option (List NodeId)) (id : NodeId) : Prop :=
  id ∈ workflow.nodes.map (·.id) ∧ isIncluded included id = true

/-- A kept node waits, under the mode, on another kept node, or on a node nested in it. -/
def Narrowed (workflow : Workflow) (included : Option (List NodeId)) (a b : NodeId) : Prop :=
  workflow.Keeps included a ∧ workflow.Keeps included b ∧
    ∃ deps, (dependenciesInMode workflow included)[a]? = some deps ∧
      ∃ dep ∈ deps, workflow.Nests b dep

/-- An edge of the file the mode can follow: to a kept node, over a dependency it keeps, or to a
    top-level node it leaves out. -/
def CanFollow (workflow : Workflow) (included : Option (List NodeId)) (a b : NodeId) : Prop :=
  ∃ node ∈ workflow.nodes, node.id = a ∧ ∃ dep ∈ node.dependsOn,
    (isIncluded included dep = true ∧ workflow.Nests b dep ∧ isIncluded included b = true) ∨
      (isIncluded included dep = false ∧ dep = b ∧ b ∈ workflow.nodes.map (·.id))

variable {included : Option (List NodeId)}

theorem CanFollow.waits {a b : NodeId} (h : CanFollow workflow included a b) : workflow.Waits a b := by
  obtain ⟨node, hnode, rfl, dep, hdep, ⟨-, hnests, -⟩ | ⟨-, rfl, hb⟩⟩ := h
  · exact ⟨node, hnode, rfl, dep, hdep, hnests⟩
  · obtain ⟨other, hother, rfl⟩ := List.mem_map.mp hb
    exact ⟨node, hnode, rfl, other.id, hdep, nests_self hother⟩

theorem keeps_of_nests {top id : NodeId} (h : workflow.Nests top id)
    (hinc : isIncluded included top = true) : workflow.Keeps included top := by
  obtain ⟨node, hnode, rfl, -⟩ := h
  exact ⟨List.mem_map_of_mem hnode, hinc⟩

/-- What a node inherits is at the end of edges the mode follows. -/
theorem follows_of_inherits (hdistinct : workflow.Distinct) {a d b : NodeId}
    (ha : a ∈ workflow.nodes.map (·.id)) (h : Inherits workflow included a d)
    (hb : workflow.Nests b d) (hinc : isIncluded included b = true) :
    TransGen (CanFollow workflow included) a b := by
  induction h with
  | @kept id dep hdeclared hkept =>
    obtain ⟨node, hnode, rfl⟩ := List.mem_map.mp ha
    rw [declared_eq hdistinct hnode] at hdeclared
    exact .single ⟨node, hnode, rfl, dep, hdeclared, .inl ⟨hkept, hb, hinc⟩⟩
  | @through id dep d hdeclared hout hrest ih =>
    obtain ⟨node, hnode, rfl⟩ := List.mem_map.mp ha
    rw [declared_eq hdistinct hnode] at hdeclared
    -- what an excluded id inherits, it declares: it is a top-level node's
    have hdep : dep ∈ workflow.nodes.map (·.id) := by
      cases hrest with
      | kept hdecl _ => exact Workflow.mem_of_declared hdecl
      | through hdecl _ _ => exact Workflow.mem_of_declared hdecl
    exact .head ⟨node, hnode, rfl, dep, hdeclared, .inr ⟨hout, rfl, hdep⟩⟩ (ih hdep hb)

/-- Edges the mode follows, from any node to a kept one, are what the node inherits and what the
    mode leaves the kept nodes on the way waiting on. -/
theorem narrowed_of_follows (hdistinct : workflow.Distinct)
    (hcycle : Precedence.Acyclic (Precedence.Apart (Drops workflow included))) {t b : NodeId}
    (hb : isIncluded included b = true) (h : TransGen (CanFollow workflow included) t b) :
    ∃ d m, Inherits workflow included t d ∧ workflow.Nests m d ∧
      isIncluded included m = true ∧ (m = b ∨ TransGen (Narrowed workflow included) m b) := by
  induction h using TransGen.head_induction_on with
  | single hstep =>
    obtain ⟨node, hnode, rfl, dep, hdep, ⟨hkept, hnests, hinc⟩ | ⟨hout, rfl, -⟩⟩ := hstep
    · exact ⟨dep, b, .kept (by rwa [declared_eq hdistinct hnode]) hkept, hnests, hinc, .inl rfl⟩
    · rw [hb] at hout
      cases hout
  | head hstep hrest ih =>
    obtain ⟨d, m, hinherits, hm, hmInc, hmb⟩ := ih
    obtain ⟨node, hnode, rfl, dep, hdep, ⟨hkept, hnests, hinc⟩ | ⟨hout, rfl, -⟩⟩ := hstep
    · -- a kept node on the way is left waiting on what it inherits
      rename_i t'
      refine ⟨dep, t', .kept (by rwa [declared_eq hdistinct hnode]) hkept, hnests, hinc, .inr ?_⟩
      obtain ⟨other, hother, hid, -⟩ := id hnests
      subst hid
      obtain ⟨deps, hdeps, hall⟩ := depends_of_inherits hcycle hother hinc
      have hedge : Narrowed workflow included other.id m :=
        ⟨⟨List.mem_map_of_mem hother, hinc⟩, keeps_of_nests hm hmInc, deps, hdeps, d,
          hall d hinherits, hm⟩
      rcases hmb with rfl | hmb
      · exact .single hedge
      · exact .head hedge hmb
    · exact ⟨d, m, .through (by rwa [declared_eq hdistinct hnode]) hout hinherits, hm, hmInc, hmb⟩

/-- **Between kept nodes, the narrowed graph reaches what the mode can follow.** -/
theorem narrowed_iff (hdistinct : workflow.Distinct)
    (hcycle : Precedence.Acyclic (Precedence.Apart (Drops workflow included))) {a b : NodeId}
    (ha : workflow.Keeps included a) (hb : workflow.Keeps included b) :
    TransGen (Narrowed workflow included) a b ↔ TransGen (CanFollow workflow included) a b := by
  constructor
  · intro h
    induction h with
    | single hstep =>
      obtain ⟨-, -, deps, hdeps, dep, hdep, hnests⟩ := hstep
      exact follows_of_inherits hdistinct ha.1 (inherits_of_depends hdeps hdep) hnests hb.2
    | tail _ hstep ih =>
      obtain ⟨hc, -, deps, hdeps, dep, hdep, hnests⟩ := hstep
      exact (ih hc).trans
        (follows_of_inherits hdistinct hc.1 (inherits_of_depends hdeps hdep) hnests hb.2)
  · intro h
    obtain ⟨d, m, hinherits, hm, hmInc, hmb⟩ := narrowed_of_follows hdistinct hcycle hb.2 h
    obtain ⟨node, hnode, rfl⟩ := List.mem_map.mp ha.1
    obtain ⟨deps, hdeps, hall⟩ := depends_of_inherits hcycle hnode ha.2
    have hedge : Narrowed workflow included node.id m :=
      ⟨ha, keeps_of_nests hm hmInc, deps, hdeps, d, hall d hinherits, hm⟩
    rcases hmb with rfl | hmb
    · exact .single hedge
    · exact .head hedge hmb

/-- Nodes the mode leaves out that wait on each other do so in the file. -/
theorem acyclic_drops (hacyclic : Precedence.Acyclic (Precedence.Apart workflow.Waits)) :
    Precedence.Acyclic (Precedence.Apart (Drops workflow included)) := by
  have hwaits : ∀ {a b : NodeId}, Precedence.Apart (Drops workflow included) a b →
      b ∈ workflow.nodes.map (·.id) → Precedence.Apart workflow.Waits a b := by
    intro a b hdrops hb
    obtain ⟨node, hnode, hid, hdep⟩ := dependsOn_of_declared hdrops.1.1
    obtain ⟨other, hother, rfl⟩ := List.mem_map.mp hb
    exact ⟨⟨node, hnode, hid, other.id, hdep, nests_self hother⟩, hdrops.2⟩
  have hpath : ∀ {a b : NodeId}, TransGen (Precedence.Apart (Drops workflow included)) a b →
      b ∈ workflow.nodes.map (·.id) → TransGen (Precedence.Apart workflow.Waits) a b := by
    intro a b h
    induction h with
    | single hstep => exact fun hb => .single (hwaits hstep hb)
    | tail _ hstep ih =>
      intro hb
      exact .tail (ih (Workflow.mem_of_declared hstep.1.1)) (hwaits hstep hb)
  intro id hloop
  obtain ⟨next, hfirst, -⟩ := TransGen.head'_iff.mp hloop
  exact hacyclic id (hpath hloop (Workflow.mem_of_declared hfirst.1.1))

/-! ## The pairs -/

/-- The edge of the file between two indices. -/
def EdgeAt (workflow : Workflow) (i j : Nat) : Prop :=
  ∃ a b, workflow.nodes[i]? = some a ∧ workflow.nodes[j]? = some b ∧ workflow.Waits a.id b.id

/-- Every id of the file belongs to some index. -/
theorem ownerOf_isSome {nodes : List Node} {node nested : Node} (hnode : node ∈ nodes)
    (hnested : nested ∈ nodeAndNested node) : (ownerOf nodes)[nested.id]?.isSome := by
  have hkeep : ∀ {owner : OrdMap NodeId Nat} {id key : NodeId} {i : Nat}, owner[key]?.isSome →
      (owner.insert id i)[key]?.isSome := by
    intro owner id key i h
    rw [OrdMap.getElem?_insert_eq]
    split
    · rfl
    · exact h
  have hclaim : ∀ (i : Nat) (key : NodeId) (claimed : List Node) (owner : OrdMap NodeId Nat),
      (owner[key]?.isSome ∨ ∃ n ∈ claimed, n.id = key) →
      (claimed.foldl (fun owner node => owner.insert node.id i) owner)[key]?.isSome := by
    intro i key claimed
    induction claimed with
    | nil => exact fun owner h => by simpa using h
    | cons first rest ih =>
      intro owner h
      refine ih _ ?_
      rcases h with h | ⟨n, hn, rfl⟩
      · exact .inl (hkeep h)
      · rcases List.mem_cons.mp hn with rfl | hn
        · exact .inl (by rw [OrdMap.getElem?_insert_eq, if_pos rfl]; rfl)
        · exact .inr ⟨n, hn, rfl⟩
  have hall : ∀ (entries : List (Node × Nat)) (owner : OrdMap NodeId Nat),
      (owner[nested.id]?.isSome ∨ ∃ entry ∈ entries, entry.1 = node) →
      (entries.foldl (fun owner entry =>
        (nodeAndNested entry.1).foldl (fun owner node => owner.insert node.id entry.2) owner)
          owner)[nested.id]?.isSome := by
    intro entries
    induction entries with
    | nil => exact fun owner h => by simpa using h
    | cons entry rest ih =>
      intro owner h
      refine ih _ ?_
      rcases h with h | ⟨other, hother, rfl⟩
      · exact .inl (hclaim entry.2 nested.id _ owner (.inl h))
      · rcases List.mem_cons.mp hother with rfl | hother
        · exact .inl (hclaim other.2 nested.id _ owner (.inr ⟨nested, hnested, rfl⟩))
        · exact .inr ⟨other, hother, rfl⟩
  obtain ⟨i, hi⟩ := List.mem_iff_getElem?.mp hnode
  exact hall nodes.zipIdx ∅ (.inr ⟨(node, i), List.mem_zipIdx_iff_getElem?.mpr hi, rfl⟩)

/-- One node of the file stands at one index. -/
theorem index_unique (hdistinct : workflow.Distinct) {i j : Nat} {a b : Node}
    (ha : workflow.nodes[i]? = some a) (hb : workflow.nodes[j]? = some b) (hid : a.id = b.id) :
    i = j := by
  have hnodup : (workflow.nodes.map (·.id)).Nodup := by
    have hall := hdistinct
    rw [Workflow.Distinct, Workflow.iterNodes, nodesAndNested_eq, List.map_flatMap] at hall
    refine List.pairwise_map.mpr ?_
    refine (List.nodup_flatMap.mp hall).2.imp fun {x y} hxy heq => ?_
    exact hxy (List.mem_map_of_mem (self_nested x)) (heq ▸ List.mem_map_of_mem (self_nested y))
  have hiMap : (workflow.nodes.map (·.id))[i]? = some a.id := by simp [ha]
  have hjMap : (workflow.nodes.map (·.id))[j]? = some a.id := by simp [hb, hid]
  exact (List.getElem?_inj (List.getElem?_eq_some_iff.mp hiMap).1 hnodup).mp
    (hiMap.trans hjMap.symm)

/-- **What a node's dependencies belong to is what it waits on.** -/
theorem mem_depsAt_iff (hdistinct : workflow.Distinct) {i j : Nat} :
    j ∈ Fanout.depsAt workflow.nodes (ownerOf workflow.nodes) i ↔ EdgeAt workflow i j := by
  constructor
  · exact waits_of_depsAt
  rintro ⟨a, b, ha, hb, node, hnode, hid, dep, hdep, top, htop, htopId, nested, hnested, rfl⟩
  have hnodeA : node = a := eq_of_id hdistinct hnode (List.mem_of_getElem? ha) hid
  have htopB : top = b := eq_of_id hdistinct htop (List.mem_of_getElem? hb) htopId
  subst hnodeA htopB
  obtain ⟨k, hk⟩ := Option.isSome_iff_exists.mp (ownerOf_isSome htop hnested)
  obtain ⟨owner, howner, other, hother, hotherId⟩ := ownerOf_sound hk
  have hsame : owner = top := top_unique hdistinct (List.mem_of_getElem? howner) htop hother
    hnested hotherId
  subst hsame
  have hkj : k = j := index_unique hdistinct howner hb rfl
  unfold Fanout.depsAt
  rw [ha]
  exact List.mem_filterMap.mpr ⟨nested.id, hdep, hkj ▸ hk⟩

/-- All that `i` reaches is found; the walk passes by an index that waits on itself. -/
def Complete (workflow : Workflow) (reach : Reach) (i : Nat) : Prop :=
  ∀ j, TransGen (Precedence.Apart (EdgeAt workflow)) i j → j ∈ reach.reachable.getD i []

/-- The walk inside `path`: what is outside it is found whole, or not looked at. -/
structure Filled (workflow : Workflow) (reach : Reach) (path : List Nat) : Prop where
  reachLength : reach.reachable.length = workflow.nodes.length
  visitLength : reach.visiting.length = workflow.nodes.length
  visiting : ∀ k, reach.visiting.getD k false = true ↔ k ∈ path
  complete : ∀ k, k ∉ path → reach.reachable.getD k [] = [] ∨ Complete workflow reach k

/-- Nothing found is lost. -/
def Finds (before after : Reach) : Prop :=
  ∀ k j, j ∈ before.reachable.getD k [] → j ∈ after.reachable.getD k []

theorem Finds.complete {before after : Reach} (h : Finds before after) {i : Nat}
    (hi : Complete workflow before i) : Complete workflow after i :=
  fun j hj => h i j (hi j hj)

theorem lt_of_edgeAt {i j : Nat} (h : EdgeAt workflow i j) :
    i < workflow.nodes.length ∧ j < workflow.nodes.length := by
  obtain ⟨a, b, ha, hb, -⟩ := h
  exact ⟨(List.getElem?_eq_some_iff.mp ha).1, (List.getElem?_eq_some_iff.mp hb).1⟩

theorem getD_set {α : Type} {l : List α} {i k : Nat} {x d : α} (hi : i < l.length) :
    (l.set i x).getD k d = if k = i then x else l.getD k d := by
  rw [List.getD_eq_getElem?_getD, List.getElem?_set]
  by_cases hk : k = i
  · subst hk
    rw [if_pos rfl, if_pos hi, if_pos rfl]
    rfl
  · rw [if_neg (Ne.symm hk), if_neg hk, List.getD_eq_getElem?_getD]

/-- One dependency walked: it is found from `i`, and so is all it reaches. -/
theorem reachOne_filled {path : List Nat} {i dep : Nat}
    (hedge : Precedence.Apart (EdgeAt workflow) i dep) {walk : Nat → Reach → Reach} {reach : Reach}
    (hfilled : Filled workflow (walk dep reach) (i :: path)) (hfinds : Finds reach (walk dep reach))
    (hdone : Complete workflow (walk dep reach) dep) :
    Filled workflow (Fanout.reachOne walk i reach dep) (i :: path) ∧
      Finds reach (Fanout.reachOne walk i reach dep) ∧
      dep ∈ (Fanout.reachOne walk i reach dep).reachable.getD i [] ∧
      ∀ j, TransGen (Precedence.Apart (EdgeAt workflow)) dep j →
        j ∈ (Fanout.reachOne walk i reach dep).reachable.getD i [] := by
  have hne : dep ≠ i := Ne.symm hedge.2
  have hlt : i < (walk dep reach).reachable.length := by
    rw [hfilled.reachLength]
    exact (lt_of_edgeAt hedge.1).1
  have hget : ∀ k, (Fanout.reachOne walk i reach dep).reachable.getD k [] =
      if k = i then (walk dep reach).reachable.getD i [] ∪
        dep :: (walk dep reach).reachable.getD dep []
      else (walk dep reach).reachable.getD k [] := by
    intro k
    unfold Fanout.reachOne
    rw [if_neg hne]
    exact getD_set hlt
  have hkeeps : Finds (walk dep reach) (Fanout.reachOne walk i reach dep) := by
    intro k j hj
    rw [hget]
    split
    · next hk =>
      subst hk
      exact List.mem_union_iff.mpr (.inl hj)
    · exact hj
  refine ⟨⟨?_, ?_, ?_, fun k hk => ?_⟩, fun k j hj => hkeeps k j (hfinds k j hj), ?_, fun j hj => ?_⟩
  · unfold Fanout.reachOne
    rw [if_neg hne]
    exact (List.length_set ..).trans hfilled.reachLength
  · unfold Fanout.reachOne
    rw [if_neg hne]
    exact hfilled.visitLength
  · unfold Fanout.reachOne
    rw [if_neg hne]
    exact hfilled.visiting
  · have hki : k ≠ i := by
      rintro rfl
      exact hk List.mem_cons_self
    rw [hget, if_neg hki]
    rcases hfilled.complete k hk with hnone | hall
    · exact .inl hnone
    · exact .inr (hkeeps.complete hall)
  · rw [hget, if_pos rfl]
    exact List.mem_union_iff.mpr (.inr List.mem_cons_self)
  · rw [hget, if_pos rfl]
    exact List.mem_union_iff.mpr (.inr (List.mem_cons_of_mem _ (hdone j hj)))

/-- **Where no two indices wait on each other, a walk finds all its index reaches.** -/
theorem walk_filled (hdistinct : workflow.Distinct)
    (hacyclic : Precedence.Acyclic (Precedence.Apart (EdgeAt workflow))) (fuel : Nat) :
    ∀ (i : Nat) (reach : Reach) (path : List Nat), Filled workflow reach path → path.Nodup →
      (∀ k ∈ path, k < workflow.nodes.length ∧
        TransGen (Precedence.Apart (EdgeAt workflow)) k i) →
      i < workflow.nodes.length → workflow.nodes.length < fuel + path.length →
      Filled workflow (Fanout.walk workflow.nodes (ownerOf workflow.nodes) fuel i reach) path ∧
        Finds reach (Fanout.walk workflow.nodes (ownerOf workflow.nodes) fuel i reach) ∧
        Complete workflow (Fanout.walk workflow.nodes (ownerOf workflow.nodes) fuel i reach) i := by
  induction fuel with
  | zero =>
    intro i reach path hfilled hnodup hpath hi hfuel
    have hsub : path ⊆ List.range workflow.nodes.length :=
      fun k hk => List.mem_range.mpr (hpath k hk).1
    have hle := (hnodup.subperm hsub).length_le
    rw [List.length_range] at hle
    omega
  | succ fuel ih =>
    intro i reach path hfilled hnodup hpath hi hfuel
    have hnew : i ∉ path := fun hmem => hacyclic i (hpath i hmem).2
    unfold Fanout.walk
    dsimp only
    split
    · next hstop =>
      rw [Bool.or_eq_true, hfilled.visiting] at hstop
      have hsome := hstop.resolve_left hnew
      refine ⟨hfilled, fun k j hj => hj, ?_⟩
      rcases hfilled.complete i hnew with hnone | hall
      · rw [hnone] at hsome
        cases hsome
      · exact hall
    next hstart =>
    let entered : Reach := { reach with visiting := reach.visiting.set i true }
    have hlt : i < reach.visiting.length := by rw [hfilled.visitLength]; exact hi
    have hentered : Filled workflow entered (i :: path) := by
      refine ⟨hfilled.reachLength, (List.length_set ..).trans hfilled.visitLength, fun k => ?_,
        fun k hk => hfilled.complete k fun hmem => hk (List.mem_cons_of_mem _ hmem)⟩
      show (reach.visiting.set i true).getD k false = true ↔ _
      rw [getD_set hlt, List.mem_cons]
      split
      · next he => exact iff_of_true rfl (.inl he)
      · next he => rw [or_iff_right he, hfilled.visiting]
    -- each dependency is found, and stays found
    have hfold : ∀ (deps : List Nat),
        deps ⊆ Fanout.depsAt workflow.nodes (ownerOf workflow.nodes) i → ∀ inner : Reach,
        Filled workflow inner (i :: path) →
        Filled workflow (deps.foldl (Fanout.reachOne
            (Fanout.walk workflow.nodes (ownerOf workflow.nodes) fuel) i) inner) (i :: path) ∧
          Finds inner (deps.foldl (Fanout.reachOne
            (Fanout.walk workflow.nodes (ownerOf workflow.nodes) fuel) i) inner) ∧
          ∀ d ∈ deps, d ≠ i → ∀ j, (j = d ∨ TransGen (Precedence.Apart (EdgeAt workflow)) d j) →
            j ∈ (deps.foldl (Fanout.reachOne
              (Fanout.walk workflow.nodes (ownerOf workflow.nodes) fuel) i) inner).reachable.getD
                i [] := by
      intro deps
      induction deps with
      | nil => exact fun _ inner hin => ⟨hin, fun k j hj => hj, fun d hd => absurd hd List.not_mem_nil⟩
      | cons dep rest ihrest =>
        intro hsub inner hin
        by_cases hself : dep = i
        · -- a dependency on itself is passed by
          have hsame : Fanout.reachOne (Fanout.walk workflow.nodes (ownerOf workflow.nodes) fuel) i
              inner dep = inner := if_pos hself
          rw [List.foldl_cons, hsame]
          obtain ⟨hall, hmore, hdeps⟩ :=
            ihrest (fun d hd => hsub (List.mem_cons_of_mem _ hd)) inner hin
          refine ⟨hall, hmore, fun d hd hne => ?_⟩
          rcases List.mem_cons.mp hd with rfl | hd
          · exact absurd hself hne
          · exact hdeps d hd hne
        have hedge : Precedence.Apart (EdgeAt workflow) i dep :=
          ⟨(mem_depsAt_iff hdistinct).mp (hsub List.mem_cons_self), Ne.symm hself⟩
        obtain ⟨hwalked, hgrown, hdone⟩ := ih dep inner (i :: path) hin
          (List.nodup_cons.mpr ⟨hnew, hnodup⟩)
          (fun k hk => by
            rcases List.mem_cons.mp hk with rfl | hk
            · exact ⟨hi, .single hedge⟩
            · exact ⟨(hpath k hk).1, .tail (hpath k hk).2 hedge⟩)
          (lt_of_edgeAt hedge.1).2 (by rw [List.length_cons]; omega)
        obtain ⟨hone, hfinds, hself, hbeyond⟩ :=
          reachOne_filled hedge hwalked hgrown hdone
        obtain ⟨hall, hmore, hdeps⟩ :=
          ihrest (fun d hd => hsub (List.mem_cons_of_mem _ hd)) _ hone
        refine ⟨hall, fun k j hj => hmore k j (hfinds k j hj), fun d hd hne j hj => ?_⟩
        rcases List.mem_cons.mp hd with rfl | hd
        · refine hmore i j ?_
          rcases hj with rfl | hj
          · exact hself
          · exact hbeyond j hj
        · exact hdeps d hd hne j hj
    obtain ⟨hall, hfinds, hdeps⟩ := hfold _ (List.Subset.refl _) entered hentered
    generalize (Fanout.depsAt workflow.nodes (ownerOf workflow.nodes) i).foldl (Fanout.reachOne
      (Fanout.walk workflow.nodes (ownerOf workflow.nodes) fuel) i)
        { reach with visiting := reach.visiting.set i true } = after at hall hfinds hdeps ⊢
    have hcomplete : Complete workflow { after with visiting := after.visiting.set i false } i := by
      intro j hj
      obtain ⟨d, hd, hrest⟩ := TransGen.head'_iff.mp hj
      refine hdeps d ((mem_depsAt_iff hdistinct).mpr hd.1) (Ne.symm hd.2) j ?_
      rcases Relation.reflTransGen_iff_eq_or_transGen.mp hrest with he | hrest
      · exact .inl he
      · exact .inr hrest
    refine ⟨⟨hall.reachLength, (List.length_set ..).trans hall.visitLength, fun k => ?_,
      fun k hk => ?_⟩, hfinds, hcomplete⟩
    · show (after.visiting.set i false).getD k false = true ↔ _
      rw [getD_set (by rw [hall.visitLength]; exact hi)]
      split
      · next he => simp [he, hnew]
      · next he => rw [hall.visiting, List.mem_cons, or_iff_right he]
    · by_cases he : k = i
      · exact .inr (he ▸ hcomplete)
      · exact hall.complete k fun hmem => (List.mem_cons.mp hmem).elim he hk

/-- A path of the ids runs over the indices of the nodes on the way. -/
theorem path_at {x y : NodeId} (h : TransGen workflow.Waits x y) :
    ∀ {i j : Nat} {a b : Node}, workflow.nodes[i]? = some a → a.id = x →
      workflow.nodes[j]? = some b → b.id = y → TransGen (EdgeAt workflow) i j := by
  induction h with
  | single hstep =>
    rintro i j a b ha rfl hb rfl
    exact .single ⟨a, b, ha, hb, hstep⟩
  | tail _ hstep ih =>
    rintro i j a b ha rfl hb rfl
    obtain ⟨node, hnode, hid, -⟩ := id hstep
    obtain ⟨m, hm⟩ := List.mem_iff_getElem?.mp hnode
    exact .tail (ih ha rfl hm hid) ⟨node, b, hm, hb, hid ▸ hstep⟩

/-- And a path of the indices over their ids. -/
theorem waits_of_path (hdistinct : workflow.Distinct) {i j : Nat}
    (h : TransGen (Precedence.Apart (EdgeAt workflow)) i j) :
    ∃ a b, workflow.nodes[i]? = some a ∧ workflow.nodes[j]? = some b ∧
      TransGen (Precedence.Apart workflow.Waits) a.id b.id := by
  induction h with
  | single hstep =>
    obtain ⟨⟨a, b, ha, hb, hwaits⟩, hne⟩ := hstep
    exact ⟨a, b, ha, hb, .single ⟨hwaits, fun hid => hne (index_unique hdistinct ha hb hid)⟩⟩
  | tail _ hstep ih =>
    obtain ⟨a, b, ha, hb, hpath⟩ := ih
    obtain ⟨⟨b', c, hb', hc, hwaits⟩, hne⟩ := hstep
    obtain rfl := Option.some.inj (hb.symm.trans hb')
    exact ⟨a, c, ha, hc, hpath.tail ⟨hwaits, fun hid => hne (index_unique hdistinct hb hc hid)⟩⟩

theorem acyclic_at (hdistinct : workflow.Distinct)
    (h : Precedence.Acyclic (Precedence.Apart workflow.Waits)) :
    Precedence.Acyclic (Precedence.Apart (EdgeAt workflow)) := by
  intro i hloop
  obtain ⟨a, b, ha, hb, hpath⟩ := waits_of_path hdistinct hloop
  obtain rfl := Option.some.inj (ha.symm.trans hb)
  exact h a.id hpath

/-- **Where no two nodes wait on each other, what is found is what is reached.** -/
theorem reachable_iff (hdistinct : workflow.Distinct)
    (hacyclic : Precedence.Acyclic (Precedence.Apart workflow.Waits)) {i j : Nat} {a b : Node}
    (ha : workflow.nodes[i]? = some a) (hb : workflow.nodes[j]? = some b) (hij : i ≠ j) :
    j ∈ (reachableFrom workflow.nodes).getD i [] ↔ TransGen workflow.Waits a.id b.id := by
  have hi : i < workflow.nodes.length := (List.getElem?_eq_some_iff.mp ha).1
  constructor
  · intro hmem
    obtain ⟨a', b', ha', hb', hpath⟩ := reachableFrom_sound i j hmem
    obtain rfl := Option.some.inj (ha.symm.trans ha')
    obtain rfl := Option.some.inj (hb.symm.trans hb')
    exact hpath
  · intro hwaits
    have hpath := Precedence.transGen_apart (path_at hwaits ha rfl hb rfl) hij
    have hstart : Filled workflow ⟨List.replicate workflow.nodes.length [],
        List.replicate workflow.nodes.length false⟩ [] := by
      refine ⟨List.length_replicate, List.length_replicate, fun k => ?_, fun k hk => .inl ?_⟩
      · rw [List.getD_eq_getElem?_getD, List.getElem?_replicate]
        split <;> simp
      · rw [List.getD_eq_getElem?_getD, List.getElem?_replicate]
        split <;> rfl
    have hfold : ∀ (indices : List Nat), (∀ k ∈ indices, k < workflow.nodes.length) →
        ∀ reach : Reach, Filled workflow reach [] →
        ∀ k, k ∈ indices ∨ Complete workflow reach k →
          Complete workflow (indices.foldl (fun reach i => Fanout.walk workflow.nodes
            (ownerOf workflow.nodes) (workflow.nodes.length + 1) i reach) reach) k := by
      intro indices
      induction indices with
      | nil => exact fun _ reach _ k hk => hk.resolve_left List.not_mem_nil
      | cons first rest ih =>
        intro hlt reach hfilled k hk
        obtain ⟨hone, hfinds, hdone⟩ := walk_filled hdistinct (acyclic_at hdistinct hacyclic)
          (workflow.nodes.length + 1) first reach [] hfilled List.nodup_nil
          (fun k hk => absurd hk List.not_mem_nil) (hlt first List.mem_cons_self) (by simp)
        refine ih (fun k hk => hlt k (List.mem_cons_of_mem _ hk)) _ hone k ?_
        rcases hk with hk | hk
        · rcases List.mem_cons.mp hk with rfl | hk
          · exact .inr hdone
          · exact .inl hk
        · exact .inr (hfinds.complete hk)
    exact hfold (List.range workflow.nodes.length) (fun k hk => List.mem_range.mp hk) _ hstart
      i (.inl (List.mem_range.mpr hi)) j hpath

/-- **Where no two nodes wait on each other, the pairs answered are the unordered ones.** -/
theorem mem_pairs_iff (hdistinct : workflow.Distinct)
    (hacyclic : Precedence.Acyclic (Precedence.Apart workflow.Waits))
    {i j : Nat} {a b : Node} (ha : workflow.nodes[i]? = some a) (hb : workflow.nodes[j]? = some b)
    (hij : i < j) :
    (i, j) ∈ independentTopLevelPairs workflow ↔
      ¬ TransGen workflow.Waits a.id b.id ∧ ¬ TransGen workflow.Waits b.id a.id := by
  constructor
  · intro hmem
    obtain ⟨k, -, hpair⟩ := List.mem_flatMap.mp hmem
    obtain ⟨l, hl, heq⟩ := List.mem_map.mp hpair
    obtain ⟨rfl, rfl⟩ := Prod.mk.inj heq
    have hnone := (List.mem_filter.mp hl).2
    simp only [Bool.and_eq_true, Bool.not_eq_true', ← Bool.not_eq_true, List.contains_iff_mem]
      at hnone
    rw [reachable_iff hdistinct hacyclic ha hb (by omega),
      reachable_iff hdistinct hacyclic hb ha (by omega)] at hnone
    exact hnone
  · rintro ⟨hab, hba⟩
    exact mem_pairs ha hb hij hab hba

/-! ## One graph -/

/-- The readers of a workflow's order, under the nodes a mode includes, stand for one graph. -/
structure OneGraph (workflow : Workflow) (included : Option (List NodeId)) : Prop where
  cycle : (findDependsOnCycle workflow.nodes).isSome ↔ ∃ id, TransGen workflow.Waits id id
  narrowed : ∀ {a b : NodeId}, workflow.Keeps included a → workflow.Keeps included b →
    (TransGen (Narrowed workflow included) a b ↔ TransGen workflow.Waits a b)
  pairs : ∀ {i j : Nat} {a b : Node}, workflow.nodes[i]? = some a → workflow.nodes[j]? = some b →
    i < j → ((i, j) ∈ independentTopLevelPairs workflow ↔
      ¬ TransGen workflow.Waits a.id b.id ∧ ¬ TransGen workflow.Waits b.id a.id)

/-- No two nodes wait on each other, a node that waits on itself is not only one that waits on its own
    child, and whatever a kept node waits on, some edges the mode follows lead to. -/
structure Straight (workflow : Workflow) (included : Option (List NodeId)) : Prop where
  acyclic : Precedence.Acyclic (Precedence.Apart workflow.Waits)
  named : (∃ id, workflow.Waits id id) → ∃ id, workflow.Names id id
  followed : ∀ {a b : NodeId}, workflow.Keeps included a → workflow.Keeps included b →
    TransGen workflow.Waits a b → TransGen (CanFollow workflow included) a b

/-- **The readers stand for one graph where no two nodes of it wait on each other and they follow all
    of it; and of the files no two nodes of which do, or on which the cycle rule is silent, for no
    other.** -/
theorem oneGraph_of_straight (hdistinct : workflow.Distinct) :
    (Straight workflow included → OneGraph workflow included) ∧
      (findDependsOnCycle workflow.nodes = none ∨
          Precedence.Acyclic (Precedence.Apart workflow.Waits) →
        OneGraph workflow included → Straight workflow included) := by
  constructor
  · intro h
    refine ⟨?_, fun ha hb => ?_, fun ha hb hij => mem_pairs_iff hdistinct h.acyclic ha hb hij⟩
    · rw [findDependsOnCycle_isSome_iff hdistinct]
      constructor
      · rintro ⟨id, hloop⟩
        exact ⟨id, TransGen.mono (fun _ _ => Workflow.Names.waits) _ _ hloop⟩
      · rintro ⟨id, hloop⟩
        obtain ⟨other, hself⟩ := h.named (Precedence.loop_of_apart h.acyclic hloop)
        exact ⟨other, .single hself⟩
    · rw [narrowed_iff hdistinct (acyclic_drops h.acyclic) ha hb]
      constructor
      · intro hpath
        exact TransGen.mono (fun _ _ => CanFollow.waits) _ _ hpath
      · exact h.followed ha hb
  · intro hcase h
    have hacyclic : Precedence.Acyclic (Precedence.Apart workflow.Waits) := by
      rcases hcase with hsilent | hacyclic
      · refine Precedence.Acyclic.apart fun id hloop => ?_
        have hsome := h.cycle.mpr ⟨id, hloop⟩
        rw [hsilent] at hsome
        cases hsome
      · exact hacyclic
    refine ⟨hacyclic, fun ⟨id, hself⟩ => ?_, fun ha hb hpath => ?_⟩
    · -- the ids alone close a cycle, so one of them names itself
      obtain ⟨other, hloop⟩ := (findDependsOnCycle_isSome_iff hdistinct).mp
        (h.cycle.mpr ⟨id, .single hself⟩)
      refine Precedence.loop_of_apart (fun id hcycle => hacyclic id ?_) hloop
      exact TransGen.mono (fun _ _ hnames => ⟨hnames.1.waits, hnames.2⟩) _ _ hcycle
    · rw [← narrowed_iff hdistinct (acyclic_drops hacyclic) ha hb]
      exact (h.narrowed ha hb).mpr hpath

/-- A file whose dependencies all name top-level nodes, no two of which wait on each other, is straight
    under every mode. -/
theorem straight_of_named (hdistinct : workflow.Distinct)
    (hacyclic : Precedence.Acyclic (Precedence.Apart workflow.Waits))
    (hnamed : ∀ node ∈ workflow.nodes, ∀ dep ∈ node.dependsOn, dep ∈ workflow.nodes.map (·.id)) :
    Straight workflow included := by
  have hfollows : ∀ a b, workflow.Waits a b → CanFollow workflow included a b := by
    rintro a b ⟨node, hnode, rfl, dep, hdep, hnests⟩
    have hmem := hnamed node hnode dep hdep
    obtain ⟨other, hother, rfl⟩ := List.mem_map.mp hmem
    obtain rfl := nests_unique hdistinct hnests (nests_self hother)
    refine ⟨node, hnode, rfl, other.id, hdep, ?_⟩
    cases hinc : isIncluded included other.id with
    | true => exact .inl ⟨rfl, hnests, rfl⟩
    | false => exact .inr ⟨rfl, rfl, hmem⟩
  refine ⟨hacyclic, ?_, fun _ _ hpath => TransGen.mono hfollows _ _ hpath⟩
  rintro ⟨id, node, hnode, rfl, dep, hdep, hnests⟩
  have hmem := hnamed node hnode dep hdep
  obtain ⟨other, hother, rfl⟩ := List.mem_map.mp hmem
  exact ⟨other.id, node, hnode, nests_unique hdistinct hnests (nests_self hother), hdep, hmem⟩

end

namespace Graph

instance (workflow : Workflow) (top id : NodeId) : Decidable (workflow.Nests top id) :=
  inferInstanceAs (Decidable (∃ node ∈ workflow.nodes, node.id = top ∧ _))

instance (workflow : Workflow) (a b : NodeId) : Decidable (workflow.Waits a b) :=
  inferInstanceAs (Decidable (∃ node ∈ workflow.nodes, node.id = a ∧ _))

def node (id : NodeId) (deps : List NodeId) : Node :=
  ⟨id, .bash, deps, none, none, none, false, .unscoped⟩

def group (id child : NodeId) (deps : List NodeId) : Node :=
  ⟨id, .parallel [node child []], deps, none, none, none, false, .unscoped⟩

/-- A chain whose middle a mode leaves out. -/
def chain : Workflow := ⟨[node "a" [], node "mid" ["a"], node "c" ["mid"]]⟩

theorem oneGraph_chain : OneGraph chain (some ["a", "c"]) := by
  refine (oneGraph_of_straight (by decide +kernel)).1
    (straight_of_named (by decide +kernel) ?_ (by decide +kernel))
  -- an edge of the file leads to a node listed before
  refine Precedence.Acyclic.apart (Precedence.acyclic_of_rank (fun id => (chain.nodes.map (·.id)).idxOf id) ?_)
  rintro a b ⟨node, hnode, rfl, dep, hdep, top, htop, rfl, hnested⟩
  have hall : ∀ node ∈ chain.nodes, ∀ top ∈ chain.nodes, ∀ dep ∈ node.dependsOn,
      (∃ nested ∈ nodeAndNested top, nested.id = dep) →
      (chain.nodes.map (·.id)).idxOf top.id < (chain.nodes.map (·.id)).idxOf node.id := by
    decide +kernel
  exact hall node hnode top htop dep hdep hnested

/-- `a` waits on a group's child, and the group on `a`. -/
def ring : Workflow := ⟨[node "a" ["child"], group "g" "child" ["a"]]⟩

/-- `x` waits on a group's child, which a mode that lists the group does not list. -/
def member : Workflow := ⟨[node "v" [], group "g" "child" ["v"], node "x" ["child"]]⟩

/-- `a` and `b` wait on each other, and `a` on `d`. -/
def facing : Workflow := ⟨[node "a" ["b", "d"], node "b" ["a"], node "d" []]⟩

/-- A ring through a group's child is no cycle of the rule; a child the mode does not list ends the
    narrowed graph's path; and a walk cut short by a cycle leaves out what `b` reaches. -/
theorem not_one_graph :
    (ring.Distinct ∧ findDependsOnCycle ring.nodes = none ∧ ¬ OneGraph ring none) ∧
    (member.Distinct ∧ findDependsOnCycle member.nodes = none ∧
      ¬ OneGraph member (some ["v", "g", "x"])) ∧
    (facing.Distinct ∧ (1, 2) ∈ independentTopLevelPairs facing ∧ ¬ OneGraph facing none) := by
  refine ⟨⟨by decide +kernel, by decide +kernel, fun h => ?_⟩,
    ⟨by decide +kernel, by decide +kernel, fun h => ?_⟩,
    by decide +kernel, by decide +kernel, fun h => ?_⟩
  · have hfirst : ring.Waits "a" "g" := by decide +kernel
    have hback : ring.Waits "g" "a" := by decide +kernel
    have hsome := h.cycle.mpr ⟨"a", .head hfirst (.single hback)⟩
    have hnone : (findDependsOnCycle ring.nodes).isSome = false := by decide +kernel
    rw [hnone] at hsome
    cases hsome
  · have hfirst : member.Waits "x" "g" := by decide +kernel
    have hnext : member.Waits "g" "v" := by decide +kernel
    have hx : member.Keeps (some ["v", "g", "x"]) "x" := ⟨by decide +kernel, by decide +kernel⟩
    have hv : member.Keeps (some ["v", "g", "x"]) "v" := ⟨by decide +kernel, by decide +kernel⟩
    have hpath := (h.narrowed hx hv).mpr (.head hfirst (.single hnext))
    obtain ⟨b, ⟨-, -, deps, hdeps, dep, hdep, -⟩, -⟩ := TransGen.head'_iff.mp hpath
    have hnone : (dependenciesInMode member (some ["v", "g", "x"]))["x"]? = some [] := by
      decide +kernel
    obtain rfl := Option.some.inj (hnone.symm.trans hdeps)
    exact List.not_mem_nil hdep
  · have hfirst : facing.Waits "b" "a" := by decide +kernel
    have hnext : facing.Waits "a" "d" := by decide +kernel
    have hmem : (1, 2) ∈ independentTopLevelPairs facing := by decide +kernel
    have hboth : facing.nodes[1]? = some (node "b" ["a"]) ∧ facing.nodes[2]? = some (node "d" []) :=
      ⟨rfl, rfl⟩
    exact ((h.pairs hboth.1 hboth.2 (by decide)).mp hmem).1 (.head hfirst (.single hnext))

end Graph

end Yunta
