/-
  What runs from a node on, by rank: what a decision says follows each answer.

  1. **What is held** — `ranksFrom` walks until nothing is added from the start nodes on
     (`mem_heldFrom`), `ranksBetween` back from the target, among what runs from the start
     (`mem_heldBetween`).  What the run left out is no rank, and it leads to nothing.

  2. **Ranks** — `ranked` settles every rank in as many passes as there are nodes.  The crux is
     `Settled`: after `k` passes the rank of each node with fewer than `k` nodes behind it is right.

  3. **Main result** — `ranks_layering`: over an acyclic workflow the ranks hold what is held, each
     node once, just past the furthest of what it waits on among these, and none is empty.
-/
import Yunta.Lib.Layers
import Yunta.Lib.OrdMap
import Yunta.Workflow.Optional

set_option linter.unusedVariables false

namespace Yunta.Written

open Layers (Layering layersBy past)
open Relation (ReflTransGen TransGen)

namespace Workflow

/-! ## The ranks -/

/-- One pass over the held nodes: each is ranked one past the furthest of what it waits on, as far as
    that is ranked by then. -/
def rankPass (workflow : Workflow) (held : List NodeId) (rank : OrdMap NodeId Nat) :
    OrdMap NodeId Nat :=
  (workflow.nodes.filter (held.contains ·.id)).foldl (fun rank node =>
    rank.insert node.id (past (node.dependsOn.filterMap (rank[·]?)))) rank

/-- The rank of each held node: as many passes as nodes settle every one, whatever order they are
    declared in. -/
def rankOf (workflow : Workflow) (held : List NodeId) : OrdMap NodeId Nat :=
  (List.range workflow.nodes.length).foldl (fun rank _ => workflow.rankPass held rank) ∅

/-- A node put in the rank it has, if it has one. -/
def putNode (rank : OrdMap NodeId Nat) (ranks : List (List NodeId)) (node : Node) :
    List (List NodeId) :=
  match rank[node.id]? with
  | some at_ => ranks.modify at_ (· ++ [node.id])
  | none => ranks

/-- `held` by rank, each in the order the workflow declares them. -/
def ranked (workflow : Workflow) (held : List NodeId) : List (List NodeId) :=
  let rank := workflow.rankOf held
  let deepest := past (rank.toList.map (·.2))
  workflow.nodes.foldl (putNode rank) (List.replicate deepest [])

/-- What a node adds to what runs: itself, where it is not gone and waits on something held. -/
def addsItself (gone : List NodeId) (held : List NodeId) (node : Node) : List NodeId :=
  if !gone.contains node.id && node.dependsOn.any held.contains then [node.id] else []

/-- What runs from `starts` on: the walk ends when nothing is added. -/
def heldFrom (workflow : Workflow) (starts : List NodeId) (gone : List NodeId) : List NodeId :=
  Saturate.untilStill (addsItself gone) workflow.nodes (workflow.nodes.length + 1)
    (Saturate.addAll [] (starts.filter fun node => !gone.contains node))

/-- What runs from `starts` on, by rank, each node a rank past the furthest of what it waits on among
    these. -/
def ranksFrom (workflow : Workflow) (starts : List NodeId) (leftOut : List LeftOut) :
    List (List NodeId) :=
  workflow.ranked (workflow.heldFrom starts (leftOut.map (·.node)))

/-- What a node adds to what leads to it: what it waits on that is on the way, where it is held. -/
def addsDependencies (down : List NodeId) (held : List NodeId) (node : Node) : List NodeId :=
  if held.contains node.id then node.dependsOn.filter down.contains else []

/-- What lies among `down` on a way to `target`. -/
def heldTo (workflow : Workflow) (down : List NodeId) (target : NodeId) : List NodeId :=
  Saturate.untilStill (addsDependencies down) workflow.nodes (down.length + 1) [target]

/-- What lies on a way from `start` to `target`, by rank, the target last: nothing where no way leads there. -/
def ranksBetween (workflow : Workflow) (start target : NodeId) (leftOut : List LeftOut) :
    List (List NodeId) :=
  let down := (workflow.ranksFrom [start] leftOut).flatten
  if !down.contains target then [] else workflow.ranked (workflow.heldTo down target)

/-! ## What is held -/

/-- The node `id` names waits on `dep`. -/
def DependsOn (workflow : Workflow) (id dep : NodeId) : Prop :=
  ∃ node ∈ workflow.nodes, node.id = id ∧ dep ∈ node.dependsOn

/-- `next` runs after `id`: it waits on it and is not gone. -/
def LeadsTo (workflow : Workflow) (gone : List NodeId) (id next : NodeId) : Prop :=
  workflow.DependsOn next id ∧ next ∉ gone

/-- What runs from `starts` on: each of them that is not gone, and what these lead to. -/
def RunsFrom (workflow : Workflow) (gone starts : List NodeId) (id : NodeId) : Prop :=
  ∃ start ∈ starts, start ∉ gone ∧ ReflTransGen (workflow.LeadsTo gone) start id

section
variable {workflow : Workflow} {gone starts held : List NodeId}

theorem addsItself_id {node : Node} (hnode : node ∈ workflow.nodes) {a : NodeId}
    (h : a ∈ addsItself gone held node) : a ∈ workflow.nodes.map (·.id) := by
  rw [addsItself] at h
  split at h
  · obtain rfl := List.mem_singleton.mp h
    exact List.mem_map_of_mem hnode
  · cases h

theorem mem_heldFrom {id : NodeId} :
    id ∈ workflow.heldFrom starts gone ↔ workflow.RunsFrom gone starts id := by
  constructor
  · refine Saturate.untilStill_holds (P := workflow.RunsFrom gone starts) ?_ ?_ id
    · intro held hheld node hnode a ha
      rw [addsItself] at ha
      split at ha
      · next hadds =>
        obtain rfl := List.mem_singleton.mp ha
        simp only [Bool.and_eq_true, Bool.not_eq_true', List.any_eq_true,
          List.contains_iff_mem] at hadds
        obtain ⟨hgone, dep, hdep, hmem⟩ := hadds
        obtain ⟨start, hstart, hnot, hway⟩ := hheld dep hmem
        refine ⟨start, hstart, hnot, hway.tail ⟨⟨node, hnode, rfl, hdep⟩, ?_⟩⟩
        simpa using hgone
      · cases ha
    · intro start hstart
      rw [Saturate.mem_addAll, List.mem_filter] at hstart
      rcases hstart with hstart | ⟨hstart, hgone⟩
      · cases hstart
      · exact ⟨start, hstart, by simpa using hgone, .refl⟩
  · rintro ⟨start, hstart, hgone, hway⟩
    have hfuel : Saturate.missing (workflow.nodes.map (·.id))
        (Saturate.addAll [] (starts.filter fun node => !gone.contains node)) <
          workflow.nodes.length + 1 := by
      refine Nat.lt_succ_of_le ((Saturate.missing_le _ _).trans ?_)
      rw [List.length_map]
    have hclosed : ∀ node ∈ workflow.nodes,
        ∀ a ∈ addsItself gone (workflow.heldFrom starts gone) node,
          a ∈ workflow.heldFrom starts gone :=
      Saturate.untilStill_closed (addsItself gone) (workflow.nodes.map (·.id))
        (fun held node hnode a ha => addsItself_id hnode ha) hfuel
    induction hway with
    | refl =>
      refine Saturate.subset_untilStill (Saturate.mem_addAll.mpr (.inr ?_))
      exact List.mem_filter.mpr ⟨hstart, by simpa using hgone⟩
    | tail _ hnext ih =>
      obtain ⟨⟨node, hnode, rfl, hdep⟩, hnot⟩ := hnext
      refine hclosed node hnode node.id ?_
      rw [addsItself, if_pos]
      · exact List.mem_singleton_self _
      · simp only [Bool.and_eq_true, Bool.not_eq_true', List.any_eq_true, List.contains_iff_mem]
        exact ⟨by simpa using hnot, _, hdep, ih⟩

/-- What runs is not gone, and what runs leads to, runs. -/
theorem RunsFrom.not_gone {id : NodeId} (h : workflow.RunsFrom gone starts id) : id ∉ gone := by
  obtain ⟨start, -, hgone, hway⟩ := h
  cases hway with
  | refl => exact hgone
  | tail _ hnext => exact hnext.2

theorem RunsFrom.next {id next : NodeId} (h : workflow.RunsFrom gone starts id)
    (hnext : workflow.LeadsTo gone id next) : workflow.RunsFrom gone starts next := by
  obtain ⟨start, hstart, hgone, hway⟩ := h
  exact ⟨start, hstart, hgone, hway.tail hnext⟩

theorem addsDependencies_mem {down : List NodeId} {node : Node} {a : NodeId}
    (h : a ∈ addsDependencies down held node) : a ∈ down := by
  rw [addsDependencies] at h
  split at h
  · exact List.contains_iff_mem.mp (List.mem_filter.mp h).2
  · cases h

/-- What lies on the way to the target is what leads there, among what a list closed under running
    holds. -/
theorem mem_heldTo {down : List NodeId} (hgone : ∀ id ∈ down, id ∉ gone)
    (hclosed : ∀ id ∈ down, ∀ next, workflow.LeadsTo gone id next → next ∈ down)
    {target : NodeId} (htarget : target ∈ down) {id : NodeId} :
    id ∈ workflow.heldTo down target ↔
      id ∈ down ∧ ReflTransGen (workflow.LeadsTo gone) id target := by
  constructor
  · refine Saturate.untilStill_holds
      (P := fun id => id ∈ down ∧ ReflTransGen (workflow.LeadsTo gone) id target) ?_ ?_ id
    · intro held hheld node hnode a ha
      rw [addsDependencies] at ha
      split at ha
      · next hmem =>
        obtain ⟨hdep, hdown⟩ := List.mem_filter.mp ha
        obtain ⟨hnext, hway⟩ := hheld node.id (List.contains_iff_mem.mp hmem)
        exact ⟨List.contains_iff_mem.mp hdown,
          .head ⟨⟨node, hnode, rfl, hdep⟩, hgone _ hnext⟩ hway⟩
      · cases ha
    · intro b hb
      rw [List.mem_singleton.mp hb]
      exact ⟨htarget, .refl⟩
  · rintro ⟨hdown, hway⟩
    have hfuel : Saturate.missing down [target] < down.length + 1 :=
      Nat.lt_succ_of_le (Saturate.missing_le _ _)
    have hstill : ∀ node ∈ workflow.nodes,
        ∀ a ∈ addsDependencies down (workflow.heldTo down target) node,
          a ∈ workflow.heldTo down target :=
      Saturate.untilStill_closed (addsDependencies down) down
        (fun held node hnode a ha => addsDependencies_mem ha) hfuel
    induction hway using ReflTransGen.head_induction_on with
    | refl => exact Saturate.subset_untilStill (List.mem_singleton_self target)
    | head hnext _ ih =>
      have hheld := ih (hclosed _ hdown _ hnext)
      obtain ⟨⟨node, hnode, rfl, hdep⟩, -⟩ := hnext
      refine hstill node hnode _ ?_
      rw [addsDependencies, if_pos (List.contains_iff_mem.mpr hheld)]
      exact List.mem_filter.mpr ⟨hdep, List.contains_iff_mem.mpr hdown⟩

/-! ## Ranks -/

/-- The declared nodes among the held ones, in declaration order. -/
def kept (workflow : Workflow) (held : List NodeId) : List NodeId :=
  (workflow.nodes.filter (held.contains ·.id)).map (·.id)

theorem mem_kept {id : NodeId} :
    id ∈ workflow.kept held ↔ id ∈ held ∧ id ∈ workflow.nodes.map (·.id) := by
  rw [kept, List.mem_map, List.mem_map]
  constructor
  · rintro ⟨node, hnode, rfl⟩
    obtain ⟨hmem, hheld⟩ := List.mem_filter.mp hnode
    exact ⟨List.contains_iff_mem.mp hheld, node, hmem, rfl⟩
  · rintro ⟨hheld, node, hmem, rfl⟩
    exact ⟨node, List.mem_filter.mpr ⟨hmem, List.contains_iff_mem.mpr hheld⟩, rfl⟩

/-- What the node `id` names waits on, among the kept ones. -/
def waitsIn (workflow : Workflow) (held : List NodeId) (id : NodeId) : List NodeId :=
  ((workflow.nodes.filter (·.id = id)).flatMap (·.dependsOn)).filter (workflow.kept held).contains

theorem mem_waitsIn {id dep : NodeId} :
    dep ∈ workflow.waitsIn held id ↔ workflow.DependsOn id dep ∧ dep ∈ workflow.kept held := by
  rw [waitsIn, List.mem_filter, List.mem_flatMap, List.contains_iff_mem]
  simp only [List.mem_filter, decide_eq_true_eq, and_assoc, DependsOn]

/-- The rank each kept node comes to have. -/
def depthIn (workflow : Workflow) (held : List NodeId) (id : NodeId) : Nat :=
  Layers.depth (workflow.waitsIn held) ((workflow.kept held).length + 1) id

theorem acyclic_waitsIn (hacyclic : Precedence.Acyclic workflow.DependsOn) :
    Precedence.Acyclic fun a b => b ∈ workflow.waitsIn held a :=
  fun id hcycle => hacyclic id (TransGen.mono (fun a b hb => (mem_waitsIn.mp hb).1) _ _ hcycle)

theorem depthIn_eq (hacyclic : Precedence.Acyclic workflow.DependsOn) (id : NodeId) :
    workflow.depthIn held id = past ((workflow.waitsIn held id).map (workflow.depthIn held)) :=
  Layers.depth_eq (acyclic_waitsIn hacyclic) (fun a b hb => (mem_waitsIn.mp hb).2) id

/-- After `k` passes: kept nodes alone are ranked, and the rank of each with fewer than `k` nodes
    behind it is right. -/
structure Settled (workflow : Workflow) (held : List NodeId) (k : Nat)
    (rank : OrdMap NodeId Nat) : Prop where
  kept : ∀ id at_, rank[id]? = some at_ → id ∈ workflow.kept held
  right : ∀ id ∈ workflow.kept held,
    Layers.behind (workflow.waitsIn held) (workflow.kept held) id < k →
      rank[id]? = some (workflow.depthIn held id)

/-- **A node with `k` nodes behind it** is ranked right once the nodes with fewer are. -/
theorem ranked_right (hdistinct : (workflow.nodes.map (·.id)).Nodup)
    (hacyclic : Precedence.Acyclic workflow.DependsOn) {k : Nat} {rank : OrdMap NodeId Nat}
    (h : workflow.Settled held k rank) {node : Node} (hnode : node ∈ workflow.nodes)
    (hbehind : Layers.behind (workflow.waitsIn held) (workflow.kept held) node.id < k + 1) :
    past (node.dependsOn.filterMap (rank[·]?)) = workflow.depthIn held node.id := by
  have hdeps : ∀ dep, workflow.DependsOn node.id dep ↔ dep ∈ node.dependsOn := by
    refine fun dep => ⟨?_, fun hdep => ⟨node, hnode, rfl, hdep⟩⟩
    rintro ⟨other, hother, hid, hdep⟩
    rwa [← List.inj_on_of_nodup_map hdistinct hother hnode hid]
  rw [depthIn_eq hacyclic]
  refine Layers.past_congr fun j => ?_
  rw [List.mem_filterMap, List.mem_map]
  have hbelow : ∀ dep ∈ workflow.waitsIn held node.id,
      rank[dep]? = some (workflow.depthIn held dep) := by
    intro dep hdep
    have hlt := Layers.behind_lt (acyclic_waitsIn hacyclic) (fun a b hb => (mem_waitsIn.mp hb).2) hdep
    exact h.right dep (mem_waitsIn.mp hdep).2 (by omega)
  constructor
  · rintro ⟨dep, hdep, hrank⟩
    have hin : dep ∈ workflow.waitsIn held node.id :=
      mem_waitsIn.mpr ⟨(hdeps dep).mpr hdep, h.kept dep j hrank⟩
    rw [hbelow dep hin] at hrank
    exact ⟨dep, hin, Option.some.inj hrank⟩
  · rintro ⟨dep, hdep, rfl⟩
    exact ⟨dep, (hdeps dep).mp (mem_waitsIn.mp hdep).1, hbelow dep hdep⟩

/-- **One pass** settles the nodes with `k` behind them. -/
theorem settled_rankPass (hdistinct : (workflow.nodes.map (·.id)).Nodup)
    (hacyclic : Precedence.Acyclic workflow.DependsOn) {k : Nat} {rank : OrdMap NodeId Nat}
    (h : workflow.Settled held k rank) : workflow.Settled held (k + 1) (workflow.rankPass held rank) := by
  -- the nodes the pass has been over by then are settled one further
  have hpass : ∀ done : List Node,
      (∀ node ∈ done, node ∈ workflow.nodes ∧ node.id ∈ workflow.kept held) →
      let now := done.foldl (fun rank node =>
        rank.insert node.id (past (node.dependsOn.filterMap (rank[·]?)))) rank
      workflow.Settled held k now ∧ ∀ node ∈ done,
        Layers.behind (workflow.waitsIn held) (workflow.kept held) node.id < k + 1 →
          now[node.id]? = some (workflow.depthIn held node.id) := by
    intro done
    induction done using List.reverseRecOn with
    | nil => exact fun _ => ⟨h, nofun⟩
    | append_singleton done node ih =>
      intro hdone
      obtain ⟨hkept, hright⟩ := ih fun n hn => hdone n (List.mem_append_left _ hn)
      obtain ⟨hnode, hin⟩ := hdone node (by simp)
      rw [List.foldl_append, List.foldl_cons, List.foldl_nil]
      generalize hnow : done.foldl (fun rank node =>
        rank.insert node.id (past (node.dependsOn.filterMap (rank[·]?)))) rank = now at hkept hright ⊢
      have hvalue := fun hbehind => ranked_right hdistinct hacyclic hkept hnode hbehind
      refine ⟨⟨fun id at_ hid => ?_, fun id hid hbehind => ?_⟩, fun other hother hbehind => ?_⟩
      · rw [OrdMap.getElem?_insert_eq] at hid
        split at hid
        · next heq => rwa [← heq]
        · exact hkept.kept id at_ hid
      · rw [OrdMap.getElem?_insert_eq]
        split
        · next heq => rw [hvalue (by rw [heq]; omega), heq]
        · exact hkept.right id hid hbehind
      · rw [OrdMap.getElem?_insert_eq]
        split
        · next heq => rw [hvalue (by rw [heq]; omega), heq]
        · next hne =>
          rcases List.mem_append.mp hother with hother | hother
          · exact hright other hother hbehind
          · exact absurd (congrArg (·.id) (List.mem_singleton.mp hother)).symm hne
  obtain ⟨hkept, hright⟩ := hpass (workflow.nodes.filter (held.contains ·.id)) fun node hnode => by
    exact ⟨(List.mem_filter.mp hnode).1, List.mem_map_of_mem hnode⟩
  refine ⟨hkept.kept, fun id hid hbehind => ?_⟩
  obtain ⟨node, hnode, rfl⟩ := List.mem_map.mp hid
  exact hright node hnode hbehind

theorem rankOf_right (hdistinct : (workflow.nodes.map (·.id)).Nodup)
    (hacyclic : Precedence.Acyclic workflow.DependsOn) {id : NodeId} :
    (workflow.rankOf held)[id]? =
      if id ∈ workflow.kept held then some (workflow.depthIn held id) else none := by
  have hsettled : ∀ n, workflow.Settled held n
      ((List.range n).foldl (fun rank _ => workflow.rankPass held rank) ∅) := by
    intro n
    induction n with
    | zero => exact ⟨fun id at_ h => by simp at h, fun id _ h => absurd h (Nat.not_lt_zero _)⟩
    | succ n ih =>
      rw [List.range_succ, List.foldl_append]
      exact settled_rankPass hdistinct hacyclic ih
  have hdone := hsettled workflow.nodes.length
  have hlength : (workflow.kept held).length ≤ workflow.nodes.length := by
    rw [kept, List.length_map]
    exact List.length_filter_le _ _
  show ((List.range workflow.nodes.length).foldl _ _ : OrdMap NodeId Nat)[id]? = _
  split
  · next hid =>
    have hlt : Layers.behind (workflow.waitsIn held) (workflow.kept held) id <
        (workflow.kept held).length := Layers.behind_lt_length (acyclic_waitsIn hacyclic) hid
    exact hdone.right id hid (by omega)
  · next hid =>
    exact Option.eq_none_iff_forall_ne_some.mpr fun at_ h => hid (hdone.kept id at_ h)

theorem nodup_kept (hdistinct : (workflow.nodes.map (·.id)).Nodup) :
    (workflow.kept held).Nodup :=
  hdistinct.sublist (List.filter_sublist.map _)

/-- Putting the ranked nodes is putting the kept ids. -/
theorem foldl_putNode (hdistinct : (workflow.nodes.map (·.id)).Nodup)
    (hacyclic : Precedence.Acyclic workflow.DependsOn) {nodes : List Node}
    (hnodes : ∀ node ∈ nodes, node ∈ workflow.nodes) (ranks : List (List NodeId)) :
    nodes.foldl (putNode (workflow.rankOf held)) ranks =
      ((nodes.filter (held.contains ·.id)).map (·.id)).foldl
        (fun ranks id => ranks.modify (workflow.depthIn held id) (· ++ [id])) ranks := by
  induction nodes generalizing ranks with
  | nil => rfl
  | cons node nodes ih =>
    have hnode : node.id ∈ workflow.nodes.map (·.id) :=
      List.mem_map_of_mem (hnodes node List.mem_cons_self)
    have hrank : (workflow.rankOf held)[node.id]? = if node.id ∈ workflow.kept held then
        some (workflow.depthIn held node.id) else none := rankOf_right hdistinct hacyclic
    rw [List.foldl_cons, ih fun n hn => hnodes n (List.mem_cons_of_mem _ hn), putNode, hrank]
    by_cases hheld : node.id ∈ held
    · rw [if_pos (mem_kept.mpr ⟨hheld, hnode⟩), List.filter_cons_of_pos (by simpa using hheld)]
      rfl
    · rw [if_neg fun h => hheld (mem_kept.mp h).1, List.filter_cons_of_neg (by simpa using hheld)]

theorem ranked_eq (hdistinct : (workflow.nodes.map (·.id)).Nodup)
    (hacyclic : Precedence.Acyclic workflow.DependsOn) :
    workflow.ranked held = layersBy (workflow.depthIn held) (workflow.kept held) := by
  have hdeepest : past ((workflow.rankOf held).toList.map (·.2)) =
      past ((workflow.kept held).map (workflow.depthIn held)) := by
    refine Layers.past_congr fun k => ?_
    rw [List.mem_map, List.mem_map]
    constructor
    · rintro ⟨⟨id, at_⟩, hmem, rfl⟩
      have hrank := Std.ExtTreeMap.mem_toList_iff_getElem?_eq_some.mp hmem
      rw [rankOf_right hdistinct hacyclic] at hrank
      split at hrank
      · next hid => exact ⟨id, hid, Option.some.inj hrank⟩
      · cases hrank
    · rintro ⟨id, hid, rfl⟩
      refine ⟨(id, workflow.depthIn held id), Std.ExtTreeMap.mem_toList_iff_getElem?_eq_some.mpr ?_, rfl⟩
      rw [rankOf_right hdistinct hacyclic, if_pos hid]
  rw [ranked, hdeepest, foldl_putNode hdistinct hacyclic fun _ h => h]
  exact Layers.foldl_put (workflow.depthIn held) (workflow.kept held) _

instance (id dep : NodeId) : Decidable (workflow.DependsOn id dep) :=
  inferInstanceAs (Decidable (∃ node ∈ workflow.nodes, node.id = id ∧ dep ∈ node.dependsOn))

/-- **Any held nodes, by rank**, are the declared ones among them in layers. -/
theorem ranked_layering (hdistinct : (workflow.nodes.map (·.id)).Nodup)
    (hacyclic : Precedence.Acyclic workflow.DependsOn) :
    Layering workflow.DependsOn (workflow.kept held) (workflow.ranked held) := by
  rw [ranked_eq hdistinct hacyclic]
  refine Layers.layering_layersBy fun id hid => ?_
  rw [depthIn_eq hacyclic]
  refine Layers.past_congr fun k => ?_
  simp only [List.mem_map, List.mem_filter, decide_eq_true_eq, mem_waitsIn, and_comm]

/-- The declared nodes that run from `start` on. -/
theorem mem_down (hdistinct : (workflow.nodes.map (·.id)).Nodup)
    (hacyclic : Precedence.Acyclic workflow.DependsOn) {leftOut : List LeftOut} {id : NodeId} :
    id ∈ (workflow.ranksFrom starts leftOut).flatten ↔
      id ∈ workflow.nodes.map (·.id) ∧ workflow.RunsFrom (leftOut.map (·.node)) starts id := by
  have honce : (workflow.ranksFrom starts leftOut).flatten.Perm
      (workflow.kept (workflow.heldFrom starts (leftOut.map (·.node)))) :=
    (ranked_layering hdistinct hacyclic).once
  rw [honce.mem_iff, mem_kept, mem_heldFrom, and_comm]

end

/-- **Ranks place every node just past its furthest dependency.**  Those from some nodes on hold the
    declared nodes that run from there, those between two nodes the declared ones on a way from the one
    to the other: each once, in the rank right after the highest of the ones it waits on among them. -/
theorem ranks_layering (workflow : Workflow) (hdistinct : (workflow.nodes.map (·.id)).Nodup)
    (hacyclic : Precedence.Acyclic workflow.DependsOn) (leftOut : List LeftOut) :
    (∀ starts, ∃ items : List NodeId, items.Nodup ∧
      (∀ id, id ∈ items ↔
        id ∈ workflow.nodes.map (·.id) ∧ workflow.RunsFrom (leftOut.map (·.node)) starts id) ∧
      Layering workflow.DependsOn items (workflow.ranksFrom starts leftOut)) ∧
    ∀ start target, ∃ items : List NodeId, items.Nodup ∧
      (∀ id, id ∈ items ↔
        id ∈ workflow.nodes.map (·.id) ∧ workflow.RunsFrom (leftOut.map (·.node)) [start] id ∧
          ReflTransGen (workflow.LeadsTo (leftOut.map (·.node))) id target) ∧
      Layering workflow.DependsOn items (workflow.ranksBetween start target leftOut) := by
  refine ⟨fun starts => ?_, fun start target => ?_⟩
  · have hlayers : Layering workflow.DependsOn
        (workflow.kept (workflow.heldFrom starts (leftOut.map (·.node))))
        (workflow.ranksFrom starts leftOut) := by
      rw [ranksFrom]
      exact ranked_layering hdistinct hacyclic
    refine ⟨_, nodup_kept hdistinct, fun id => ?_, hlayers⟩
    rw [mem_kept, mem_heldFrom, and_comm]
  · rw [ranksBetween]
    generalize hdown : (workflow.ranksFrom [start] leftOut).flatten = down
    have hmem : ∀ id, id ∈ down ↔ id ∈ workflow.nodes.map (·.id) ∧
        workflow.RunsFrom (leftOut.map (·.node)) [start] id := by
      intro id
      rw [← hdown]
      exact mem_down hdistinct hacyclic
    have hclosed : ∀ id ∈ down, ∀ next, workflow.LeadsTo (leftOut.map (·.node)) id next →
        next ∈ down := by
      intro id hid next hnext
      obtain ⟨node, hnode, hnodeId, -⟩ := hnext.1
      exact (hmem next).mpr ⟨List.mem_map.mpr ⟨node, hnode, hnodeId⟩, ((hmem id).mp hid).2.next hnext⟩
    by_cases htarget : target ∈ down
    · rw [if_neg (by simpa using htarget)]
      refine ⟨workflow.kept (workflow.heldTo down target), nodup_kept hdistinct, fun id => ?_,
        ranked_layering hdistinct hacyclic⟩
      rw [mem_kept, mem_heldTo (fun id hid => ((hmem id).mp hid).2.not_gone) hclosed htarget, hmem]
      tauto
    · -- no way leads there
      rw [if_pos (by simpa using htarget)]
      refine ⟨[], List.nodup_nil, fun id => ?_, Layers.layering_nil⟩
      have hreach : ∀ id ∈ down, ReflTransGen (workflow.LeadsTo (leftOut.map (·.node))) id target →
          target ∈ down := by
        intro id hid hway
        induction hway using ReflTransGen.head_induction_on with
        | refl => exact hid
        | head hnext _ ih => exact ih (hclosed _ hid _ hnext)
      constructor
      · intro hid
        cases hid
      · rintro ⟨hdeclared, hruns, hway⟩
        exact absurd (hreach id ((hmem id).mpr ⟨hdeclared, hruns⟩) hway) htarget

/-- `d` waits on `b` and on `a`, `b` on `a`, and `e`, which is left out, on `a`. -/
def unevenDiamond : Workflow where
  nodes := [node "d" ["b", "a"], node "e" ["a"], node "b" ["a"], node "a" []]
where
  node (id : NodeId) (dependsOn : List NodeId) : Node := { id, kind := .prompt, dependsOn }

theorem ranks_layering_uneven :
    (∃ items : List NodeId, "d" ∈ items ∧ "e" ∉ items ∧ Layering unevenDiamond.DependsOn items
      (unevenDiamond.ranksFrom ["a"] [⟨"e", .through "x"⟩])) ∧
    unevenDiamond.ranksFrom ["a"] [⟨"e", .through "x"⟩] = [["a"], ["b"], ["d"]] ∧
    unevenDiamond.ranksBetween "a" "b" [] = [["a"], ["b"]] := by
  have hacyclic : Precedence.Acyclic unevenDiamond.DependsOn := by
    refine Precedence.acyclic_of_rank
      (fun id => if id = "d" then 2 else if id = "b" ∨ id = "e" then 1 else 0) ?_
    rintro id dep ⟨node, hnode, rfl, hdep⟩
    revert dep
    revert node
    decide
  obtain ⟨items, -, hitems, hlayers⟩ :=
    (ranks_layering unevenDiamond (by decide) hacyclic [⟨"e", .through "x"⟩]).1 ["a"]
  refine ⟨⟨items, ?_, ?_, hlayers⟩, by decide +kernel, by decide +kernel⟩
  · have hin : "d" ∈ (unevenDiamond.ranksFrom ["a"] [⟨"e", .through "x"⟩]).flatten := by
      decide +kernel
    exact hlayers.once.mem_iff.mp hin
  · intro he
    exact ((hitems "e").mp he).2.not_gone (by simp)

end Workflow

end Yunta.Written
