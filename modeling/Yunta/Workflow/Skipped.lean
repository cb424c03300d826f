/-
  Skipping a node keeps the order of what is left.

  1. **Two graphs** — `Declares` is the whole `depends_on` graph, and `WaitsUnder` the one a mode
     leaves: what `dependencies_in_mode` answers for each node.

  2. **One list** — an included node waits on the included ones it reaches over nodes left out
     (`inherits_iff_skip`), each listed once (`dependenciesInMode_nodup`).

  3. **Main result** — `skipping_keeps_order`: over an acyclic workflow and under any mode, two
     included nodes are in order in the one graph exactly when they are in the other, and the graph a
     mode leaves has no cycle.
-/
import Yunta.Workflow.Inherited

set_option linter.unusedVariables false

namespace Yunta

open Precedence (Skip)
open Relation (TransGen)

/-! ## Two graphs -/

/-- The node `id` names declares `dep`. -/
def Workflow.Declares (workflow : Workflow) (id dep : NodeId) : Prop := dep ∈ workflow.declared id

/-- `id` waits on `dep` under a mode. -/
def WaitsUnder (workflow : Workflow) (included : Option (List NodeId)) (id dep : NodeId) : Prop :=
  ∃ deps, (dependenciesInMode workflow included)[id]? = some deps ∧ dep ∈ deps

section
variable {workflow : Workflow} {included : Option (List NodeId)}

/-! ## One list -/

/-- What a node inherits is what it reaches over the nodes left out. -/
theorem inherits_iff_skip {id dep : NodeId} :
    Inherits workflow included id dep ↔
      Skip workflow.Declares (fun a => isIncluded included a = true) id dep := by
  constructor
  · intro h
    induction h with
    | kept hdeclared hincluded => exact .direct hdeclared hincluded
    | through hdeclared hexcluded _ ih => exact .past hdeclared (by simp [hexcluded]) ih
  · intro h
    induction h with
    | direct hdeclared hincluded => exact .kept hdeclared hincluded
    | past hdeclared hexcluded _ ih =>
      exact .through hdeclared ((Bool.not_eq_true _).mp hexcluded) ih

/-- A memo no answer of which lists a node twice. -/
def MemoNodup (memo : Memo) : Prop :=
  ∀ (id : NodeId) deps, memo[id]? = some deps → deps.Nodup

theorem nodup_pushUnique {list : List NodeId} (h : list.Nodup) (id : NodeId) :
    (pushUnique list id).Nodup := by
  unfold pushUnique
  split
  · exact h
  · next hnew =>
    refine List.nodup_append.mpr ⟨h, List.nodup_singleton id, ?_⟩
    intro a ha b hb heq
    rw [List.mem_singleton.mp hb] at heq
    exact hnew (heq ▸ ha)

theorem nodup_foldl_pushUnique {list : List NodeId} (h : list.Nodup) (inherited : List NodeId) :
    (inherited.foldl pushUnique list).Nodup := by
  induction inherited generalizing list with
  | nil => exact h
  | cons first rest ih => exact ih (nodup_pushUnique h first)

/-- The walk over what a node declares pushes nothing twice. -/
theorem foldl_inheritOne_nodup (included : Option (List NodeId))
    {inherit : NodeId → Memo → List NodeId × Memo}
    (hinherit : ∀ dep memo, MemoNodup memo → MemoNodup (inherit dep memo).2)
    (declared : List NodeId) :
    ∀ acc : List NodeId × Memo, acc.1.Nodup → MemoNodup acc.2 →
      (declared.foldl (inheritOne included inherit) acc).1.Nodup ∧
        MemoNodup (declared.foldl (inheritOne included inherit) acc).2 := by
  induction declared with
  | nil => exact fun acc hout hmemo => ⟨hout, hmemo⟩
  | cons first rest ih =>
    intro acc hout hmemo
    rw [List.foldl_cons]
    by_cases hinc : isIncluded included first = true
    · rw [inheritOne, if_pos hinc]
      exact ih _ (nodup_pushUnique hout first) hmemo
    · rw [inheritOne, if_neg hinc]
      exact ih _ (nodup_foldl_pushUnique hout _) (hinherit first acc.2 hmemo)

theorem effectiveDependencies_nodup (fuel : Nat) :
    ∀ (id : NodeId) (memo : Memo) (visiting : List NodeId), MemoNodup memo →
      MemoNodup (effectiveDependencies workflow included fuel id memo visiting).2 := by
  induction fuel with
  | zero => exact fun id memo visiting hmemo => hmemo
  | succ fuel ih =>
    intro id memo visiting hmemo
    unfold effectiveDependencies
    split
    · exact hmemo
    · split
      · exact hmemo
      · obtain ⟨hout, hafter⟩ := foldl_inheritOne_nodup included
          (fun dep memo hmemo => ih dep memo (visiting ++ [id]) hmemo) (workflow.declared id)
          ([], memo) List.nodup_nil hmemo
        intro a deps hdeps
        rw [OrdMap.getElem?_insert_eq] at hdeps
        split at hdeps
        · cases hdeps
          exact hout
        · exact hafter a deps hdeps

/-- **Each dependency is listed once.** -/
theorem dependenciesInMode_nodup {id : NodeId} {deps : List NodeId}
    (h : (dependenciesInMode workflow included)[id]? = some deps) : deps.Nodup := by
  have hmemo : ∀ (nodes : List Node) (memo : Memo), MemoNodup memo →
      MemoNodup (nodes.foldl (fun memo node =>
        (effectiveDependencies workflow included (workflow.nodes.length + 1) node.id memo []).2)
          memo) := by
    intro nodes
    induction nodes with
    | nil => exact fun memo hmemo => hmemo
    | cons node rest ih =>
      exact fun memo hmemo => ih _ (effectiveDependencies_nodup _ node.id memo [] hmemo)
  unfold dependenciesInMode at h
  rw [Std.ExtTreeMap.getElem?_filter'] at h
  obtain ⟨hget, -⟩ := Option.filter_eq_some_iff.mp h
  have hempty : MemoNodup ∅ := by
    intro id deps hnone
    simp at hnone
  exact hmemo _ ∅ hempty id deps hget

/-! ## The order of what is left -/

/-- No cycle runs through the nodes left out of a workflow without one. -/
theorem acyclic_drops_of_declares (hacyclic : Precedence.Acyclic workflow.Declares) :
    Precedence.Acyclic (Drops workflow included) := by
  intro id hcycle
  exact hacyclic id (hcycle.lift (fun a => a) fun a b hdrop => hdrop.1)

/-- **An included node waits on what it reaches over the nodes left out**, and on nothing else. -/
theorem waitsUnder_iff (hacyclic : Precedence.Acyclic workflow.Declares) {id dep : NodeId}
    (hid : isIncluded included id = true) :
    WaitsUnder workflow included id dep ↔
      Skip workflow.Declares (fun a => isIncluded included a = true) id dep := by
  rw [← inherits_iff_skip]
  constructor
  · rintro ⟨deps, hdeps, hdep⟩
    exact inherits_of_depends hdeps hdep
  · intro hinherits
    obtain ⟨first, hfirst⟩ : ∃ first, first ∈ workflow.declared id := by
      cases hinherits with
      | kept hdeclared _ => exact ⟨_, hdeclared⟩
      | through hdeclared _ _ => exact ⟨_, hdeclared⟩
    obtain ⟨node, hnode, rfl⟩ := List.mem_map.mp (Workflow.mem_of_declared hfirst)
    obtain ⟨deps, hdeps, hall⟩ :=
      depends_of_inherits (acyclic_drops_of_declares hacyclic).apart hnode hid
    exact ⟨deps, hdeps, hall dep hinherits⟩

/-- Between included nodes, waiting under the mode is waiting over skips. -/
theorem transGen_waitsUnder (hacyclic : Precedence.Acyclic workflow.Declares) {a b : NodeId}
    (ha : isIncluded included a = true) :
    TransGen (WaitsUnder workflow included) a b ↔
      TransGen (Skip workflow.Declares fun a => isIncluded included a = true) a b := by
  constructor
  · intro h
    have hboth : TransGen (Skip workflow.Declares fun a => isIncluded included a = true) a b ∧
        isIncluded included b = true := by
      induction h with
      | single hab =>
        have hskip := (waitsUnder_iff hacyclic ha).mp hab
        exact ⟨.single hskip, hskip.isKept⟩
      | tail _ hbc ih =>
        have hskip := (waitsUnder_iff hacyclic ih.2).mp hbc
        exact ⟨.tail ih.1 hskip, hskip.isKept⟩
    exact hboth.1
  · intro h
    have hboth : TransGen (WaitsUnder workflow included) a b ∧ isIncluded included b = true := by
      induction h with
      | single hab => exact ⟨.single ((waitsUnder_iff hacyclic ha).mpr hab), hab.isKept⟩
      | tail _ hbc ih => exact ⟨.tail ih.1 ((waitsUnder_iff hacyclic ih.2).mpr hbc), hbc.isKept⟩
    exact hboth.1

/-- **Skipping a node keeps the order of what is left**, for every workflow without a cycle and
    every mode: an included node waits on the included ones it reaches over nodes left out, each
    once; included nodes are in order exactly when they were; and no cycle comes of it. -/
theorem skipping_keeps_order (workflow : Workflow) (included : Option (List NodeId))
    (hacyclic : ∀ id, ¬ TransGen workflow.Declares id id) :
    (∀ node ∈ workflow.nodes, isIncluded included node.id = true →
      ∃ deps, (dependenciesInMode workflow included)[node.id]? = some deps ∧ deps.Nodup ∧
        ∀ dep, dep ∈ deps ↔ isIncluded included dep = true ∧ ∃ path,
          (∀ skipped ∈ path, isIncluded included skipped = false) ∧
            (node.id :: path ++ [dep]).IsChain workflow.Declares) ∧
    (∀ a b, isIncluded included a = true → isIncluded included b = true →
      (TransGen workflow.Declares a b ↔ TransGen (WaitsUnder workflow included) a b)) ∧
    ∀ a, ¬ TransGen (WaitsUnder workflow included) a a := by
  have horder : ∀ a b, isIncluded included a = true → isIncluded included b = true →
      (TransGen workflow.Declares a b ↔ TransGen (WaitsUnder workflow included) a b) := by
    intro a b ha hb
    rw [transGen_waitsUnder hacyclic ha]
    have hskip : TransGen (Skip workflow.Declares fun a => isIncluded included a = true) a b ↔
        TransGen workflow.Declares a b := Precedence.transGen_skip_iff hb
    exact hskip.symm
  refine ⟨?_, horder, ?_⟩
  · intro node hnode hincluded
    obtain ⟨deps, hdeps, -⟩ :=
      depends_of_inherits (acyclic_drops_of_declares hacyclic).apart hnode hincluded
    refine ⟨deps, hdeps, dependenciesInMode_nodup hdeps, fun dep => ?_⟩
    have hwaits : dep ∈ deps ↔ WaitsUnder workflow included node.id dep := by
      constructor
      · exact fun hdep => ⟨deps, hdeps, hdep⟩
      · rintro ⟨deps', hdeps', hdep⟩
        rw [hdeps] at hdeps'
        cases hdeps'
        exact hdep
    rw [hwaits, waitsUnder_iff hacyclic hincluded, Precedence.skip_iff_path]
    simp only [Bool.not_eq_true]
  · intro a hcycle
    have ha : isIncluded included a = true := by
      obtain ⟨b, -, ⟨deps, hdeps, hdep⟩⟩ := TransGen.tail'_iff.mp hcycle
      exact (mem_dependenciesInMode hdeps hdep).1
    exact hacyclic a ((horder a a ha ha).mpr hcycle)

end

/-- A chain with a diamond in it: `ship` waits on `extra`, which waits on `start` directly and over
    `review`. -/
def diamondWorkflow : Workflow :=
  ⟨[⟨"start", .bash, [], none, none, none, false, .unscoped⟩,
    ⟨"review", .bash, ["start"], none, none, none, false, .unscoped⟩,
    ⟨"extra", .bash, ["review", "start"], none, none, none, false, .unscoped⟩,
    ⟨"ship", .bash, ["extra"], none, none, none, false, .unscoped⟩,
    ⟨"audit", .bash, ["review"], none, none, none, false, .unscoped⟩]⟩

/-- With `review` and `extra` left out, `ship` still waits on `start`. -/
theorem skipping_keeps_order_diamond :
    TransGen (WaitsUnder diamondWorkflow (some ["start", "ship", "audit"])) "ship" "start" := by
  have hacyclic : ∀ id, ¬ TransGen diamondWorkflow.Declares id id := by
    refine Precedence.acyclic_of_rank (fun id => (diamondWorkflow.nodes.map (·.id)).idxOf id) ?_
    intro a b hab
    obtain ⟨node, hnode, rfl⟩ := List.mem_map.mp (Workflow.mem_of_declared hab)
    revert b
    show ∀ b ∈ diamondWorkflow.declared node.id, _
    revert node
    decide
  have horder := (skipping_keeps_order diamondWorkflow (some ["start", "ship", "audit"]) hacyclic).2.1
  refine (horder "ship" "start" (by decide) (by decide)).mp ?_
  have hship : "extra" ∈ diamondWorkflow.declared "ship" := by decide
  have hextra : "start" ∈ diamondWorkflow.declared "extra" := by decide
  exact .tail (.single hship) hextra

end Yunta
