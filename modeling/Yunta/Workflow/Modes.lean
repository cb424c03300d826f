/-
  What a run's mode does to the workflow graph: what each scheduled node waits on once the excluded
  nodes drop out.

  1. **The rewriting** — `dependenciesInMode` replaces an excluded dependency by that node's own
     dependencies, transitively, through a memo it threads from node to node.

  2. **What it answers** — every dependency it lists is one the mode includes, reached from the node
     by `depends_on` (`mem_dependenciesInMode`), so an acyclic workflow stays acyclic under any mode.
-/
import Yunta.Lib.OrdMap
import Yunta.Workflow.Nodes
import Mathlib.Logic.Relation

set_option linter.unusedVariables false

namespace Yunta

open Relation (TransGen)

/-! ## The rewriting -/

/-- The node an id names: the last one, where two share it. -/
def Workflow.byId (workflow : Workflow) (id : NodeId) : Option Node :=
  workflow.nodes.reverse.find? (·.id = id)

/-- Whether a mode keeps a node: `none` narrows nothing. -/
def isIncluded (included : Option (List NodeId)) (id : NodeId) : Bool :=
  included.all (·.contains id)

/-- `list.push(id)` unless the list already holds it. -/
def pushUnique (list : List NodeId) (id : NodeId) : List NodeId :=
  if id ∈ list then list else list ++ [id]

/-- The dependencies already answered, by node. -/
abbrev Memo := OrdMap NodeId (List NodeId)

/-- One declared dependency: kept where the mode includes it, else replaced by what it waits on
    itself, as `inherit` answers that. -/
def inheritOne (included : Option (List NodeId)) (inherit : NodeId → Memo → List NodeId × Memo)
    (acc : List NodeId × Memo) (dep : NodeId) : List NodeId × Memo :=
  if isIncluded included dep then (pushUnique acc.1 dep, acc.2)
  else
    let (inherited, memo) := inherit dep acc.2
    (inherited.foldl pushUnique acc.1, memo)

section
variable (workflow : Workflow) (included : Option (List NodeId))

/-- What `id` waits on once the excluded nodes drop out, beside the memo that answers it.  Every
    call below another has one id more in `visiting`, so `fuel` above the number of nodes is never
    used up; a cycle ends where it closes. -/
def effectiveDependencies : Nat → NodeId → Memo → List NodeId → List NodeId × Memo
  | 0, id, memo, _ => ((memo[id]?).getD [], memo)
  | fuel + 1, id, memo, visiting =>
    match memo[id]? with
    | some deps => (deps, memo)
    | none =>
      if id ∈ visiting then ([], memo)
      else
        let declared := ((workflow.byId id).map (·.dependsOn)).getD []
        let (out, memo) :=
          declared.foldl (inheritOne included fun dep memo =>
            effectiveDependencies fuel dep memo (visiting ++ [id])) ([], memo)
        (out, memo.insert id out)

/-- The dependencies each included top-level node waits on under a mode. -/
def dependenciesInMode : OrdMap NodeId (List NodeId) :=
  let memo :=
    (workflow.nodes.filter fun node => isIncluded included node.id).foldl (fun memo node =>
      (effectiveDependencies workflow included (workflow.nodes.length + 1) node.id memo []).2) ∅
  memo.filter fun id _ => isIncluded included id

end

/-! ## What it answers -/

/-- `id` declares `dep` among its dependencies. -/
def Workflow.DependsOn (workflow : Workflow) (id dep : NodeId) : Prop :=
  ∃ node ∈ workflow.nodes, node.id = id ∧ dep ∈ node.dependsOn

/-- No node waits on itself, directly or through others. -/
def Workflow.Acyclic (workflow : Workflow) : Prop :=
  ∀ id, ¬ TransGen workflow.DependsOn id id

section
variable {workflow : Workflow} {included : Option (List NodeId)}

theorem Workflow.byId_some {id : NodeId} {node : Node} (h : workflow.byId id = some node) :
    node ∈ workflow.nodes ∧ node.id = id := by
  refine ⟨List.mem_reverse.mp (List.mem_of_find?_eq_some h), ?_⟩
  have hid := List.find?_some h
  exact of_decide_eq_true hid

/-- A dependency `id` may be answered: one the mode includes, which it waits on. -/
def Answerable (workflow : Workflow) (included : Option (List NodeId)) (id dep : NodeId) : Prop :=
  isIncluded included dep = true ∧ TransGen workflow.DependsOn id dep

/-- A memo whose every answer is made of ids its node is related to. -/
def MemoOf (P : NodeId → NodeId → Prop) (memo : Memo) : Prop :=
  ∀ (id : NodeId) deps, memo[id]? = some deps → ∀ dep ∈ deps, P id dep

/-- A relation an answer keeps to: it holds of a declared dependency the mode includes, and of what
    an excluded one is related to. -/
structure Inherited (workflow : Workflow) (included : Option (List NodeId))
    (P : NodeId → NodeId → Prop) : Prop where
  kept : ∀ id, ∀ dep ∈ ((workflow.byId id).map (·.dependsOn)).getD [],
    isIncluded included dep = true → P id dep
  through : ∀ id, ∀ dep ∈ ((workflow.byId id).map (·.dependsOn)).getD [],
    isIncluded included dep = false → ∀ d, P dep d → P id d

theorem mem_pushUnique {list : List NodeId} {id dep : NodeId} :
    dep ∈ pushUnique list id ↔ dep ∈ list ∨ dep = id := by
  unfold pushUnique
  split
  · next h =>
    constructor
    · exact Or.inl
    · rintro (hmem | rfl)
      · exact hmem
      · exact h
  · simp

theorem mem_foldl_pushUnique {inherited list : List NodeId} {dep : NodeId} :
    dep ∈ inherited.foldl pushUnique list ↔ dep ∈ list ∨ dep ∈ inherited := by
  induction inherited generalizing list with
  | nil => simp
  | cons first rest ih =>
    rw [List.foldl_cons, ih, mem_pushUnique, List.mem_cons, or_assoc]

theorem MemoOf.insert {P : NodeId → NodeId → Prop} {memo : Memo} (h : MemoOf P memo) {id : NodeId}
    {out : List NodeId} (hout : ∀ dep ∈ out, P id dep) : MemoOf P (memo.insert id out) := by
  intro a deps hdeps dep hdep
  rw [OrdMap.getElem?_insert_eq] at hdeps
  split at hdeps
  · next ha =>
    obtain rfl := Option.some.inj hdeps
    subst ha
    exact hout dep hdep
  · exact h a deps hdeps dep hdep

/-- The walk over what a node declares keeps what is answered for it and the memo, one dependency
    at a time. -/
theorem foldl_inheritOne_of {P : NodeId → NodeId → Prop} (hP : Inherited workflow included P)
    {inherit : NodeId → Memo → List NodeId × Memo}
    (hinherit : ∀ dep memo, MemoOf P memo →
      (∀ d ∈ (inherit dep memo).1, P dep d) ∧ MemoOf P (inherit dep memo).2)
    {id : NodeId} {declared : List NodeId}
    (hdeclared : ∀ dep ∈ declared, dep ∈ ((workflow.byId id).map (·.dependsOn)).getD []) :
    ∀ acc : List NodeId × Memo, (∀ dep ∈ acc.1, P id dep) → MemoOf P acc.2 →
      (∀ dep ∈ (declared.foldl (inheritOne included inherit) acc).1, P id dep) ∧
      MemoOf P (declared.foldl (inheritOne included inherit) acc).2 := by
  induction declared with
  | nil => exact fun acc hout hmemo => ⟨hout, hmemo⟩
  | cons first rest ih =>
    intro acc hout hmemo
    have hfirst := hdeclared first List.mem_cons_self
    have hrest := ih fun dep hdep => hdeclared dep (List.mem_cons_of_mem _ hdep)
    rw [List.foldl_cons]
    by_cases hinc : isIncluded included first = true
    · rw [inheritOne, if_pos hinc]
      refine hrest _ ?_ hmemo
      intro dep hdep
      rcases mem_pushUnique.mp hdep with hdep | rfl
      · exact hout dep hdep
      · exact hP.kept id dep hfirst hinc
    · rw [inheritOne, if_neg hinc]
      obtain ⟨hanswer, hafter⟩ := hinherit first acc.2 hmemo
      refine hrest _ ?_ hafter
      intro dep hdep
      rcases mem_foldl_pushUnique.mp hdep with hdep | hdep
      · exact hout dep hdep
      · exact hP.through id first hfirst ((Bool.not_eq_true _).mp hinc) dep (hanswer dep hdep)

/-- **Every answer keeps to what its node inherits**, and the memo it leaves does too. -/
theorem effectiveDependencies_of {P : NodeId → NodeId → Prop}
    (hP : Inherited workflow included P) (fuel : Nat) :
    ∀ (id : NodeId) (memo : Memo) (visiting : List NodeId), MemoOf P memo →
      (∀ dep ∈ (effectiveDependencies workflow included fuel id memo visiting).1, P id dep) ∧
      MemoOf P (effectiveDependencies workflow included fuel id memo visiting).2 := by
  induction fuel with
  | zero =>
    intro id memo visiting hmemo
    refine ⟨?_, hmemo⟩
    intro dep hdep
    simp only [effectiveDependencies] at hdep
    cases hget : memo[id]? with
    | none => simp [hget] at hdep
    | some deps =>
      rw [hget] at hdep
      exact hmemo id deps hget dep hdep
  | succ fuel ih =>
    intro id memo visiting hmemo
    unfold effectiveDependencies
    split
    · next deps hget => exact ⟨hmemo id deps hget, hmemo⟩
    · split
      · exact ⟨fun dep hdep => absurd hdep List.not_mem_nil, hmemo⟩
      · obtain ⟨hout, hafter⟩ := foldl_inheritOne_of hP
          (fun dep memo hmemo => ih dep memo (visiting ++ [id]) hmemo) (fun dep hdep => hdep)
          ([], memo) (fun dep hdep => absurd hdep List.not_mem_nil) hmemo
        exact ⟨hout, hafter.insert hout⟩

/-- What the rewriting answers keeps to what each node inherits. -/
theorem dependenciesInMode_of {P : NodeId → NodeId → Prop} (hP : Inherited workflow included P)
    {id dep : NodeId} {deps : List NodeId}
    (h : (dependenciesInMode workflow included)[id]? = some deps) (hdep : dep ∈ deps) :
    P id dep := by
  have hmemo : ∀ (nodes : List Node) (memo : Memo), MemoOf P memo →
      MemoOf P (nodes.foldl (fun memo node =>
        (effectiveDependencies workflow included (workflow.nodes.length + 1) node.id memo []).2)
          memo) := by
    intro nodes
    induction nodes with
    | nil => exact fun memo hmemo => hmemo
    | cons node rest ih =>
      exact fun memo hmemo => ih _ (effectiveDependencies_of hP _ node.id memo [] hmemo).2
  unfold dependenciesInMode at h
  rw [Std.ExtTreeMap.getElem?_filter'] at h
  obtain ⟨hget, -⟩ := Option.filter_eq_some_iff.mp h
  refine hmemo _ ∅ ?_ id deps hget dep hdep
  intro id deps hnone
  simp at hnone

/-- A declared dependency is one of the node of that id. -/
theorem dependsOn_of_declared {id dep : NodeId}
    (h : dep ∈ ((workflow.byId id).map (·.dependsOn)).getD []) : workflow.DependsOn id dep := by
  cases hnode : workflow.byId id with
  | none => simp [hnode] at h
  | some node =>
    obtain ⟨hmem, hid⟩ := Workflow.byId_some hnode
    exact ⟨node, hmem, hid, by simpa [hnode] using h⟩

/-- **Every dependency of a node under a mode is one the mode includes**, and one the node waits
    on. -/
theorem mem_dependenciesInMode {id dep : NodeId} {deps : List NodeId}
    (h : (dependenciesInMode workflow included)[id]? = some deps) (hdep : dep ∈ deps) :
    isIncluded included dep = true ∧ TransGen workflow.DependsOn id dep := by
  have hanswerable : Inherited workflow included (Answerable workflow included) :=
    ⟨fun id dep hdep hinc => ⟨hinc, .single (dependsOn_of_declared hdep)⟩,
      fun id dep hdep _ d hd => ⟨hd.1, .head (dependsOn_of_declared hdep) hd.2⟩⟩
  exact dependenciesInMode_of hanswerable h hdep

end

end Yunta
