/-
  A mode's rewriting keeps the order of the nodes it keeps.

  1. **Inheriting** — `Inherits` says what a node waits on once the excluded nodes drop out: a
     dependency the mode includes, or what an excluded one inherits.

  2. **The walk answers all of it** — where no two excluded nodes wait on each other, the memo's
     every answer holds all its node inherits (`effectiveDependencies_answers`), and so does what
     the rewriting answers for an included node (`depends_of_inherits`), and nothing else
     (`inherits_of_depends`).  A cycle of excluded nodes ends where it closes, and the memo keeps the
     answer cut short there.
-/
import Yunta.Lib.Precedence
import Yunta.Workflow.Modes
import Yunta.Workflow.Nesting

set_option linter.unusedVariables false

namespace Yunta

open Relation (TransGen)

/-! ## Inheriting -/

/-- What the node an id names declares. -/
def Workflow.declared (workflow : Workflow) (id : NodeId) : List NodeId :=
  ((workflow.byId id).map (·.dependsOn)).getD []

/-- What `id` waits on under a mode. -/
inductive Inherits (workflow : Workflow) (included : Option (List NodeId)) :
    NodeId → NodeId → Prop
  | kept {id dep : NodeId} (hdeclared : dep ∈ workflow.declared id)
      (hincluded : isIncluded included dep = true) : Inherits workflow included id dep
  | through {id dep d : NodeId} (hdeclared : dep ∈ workflow.declared id)
      (hexcluded : isIncluded included dep = false) (hrest : Inherits workflow included dep d) :
      Inherits workflow included id d

/-- What a node inherits is not through itself. -/
theorem Inherits.apart {workflow : Workflow} {included : Option (List NodeId)} {id d : NodeId}
    (h : Inherits workflow included id d) :
    (d ∈ workflow.declared id ∧ isIncluded included d = true) ∨
      ∃ dep ∈ workflow.declared id, dep ≠ id ∧ isIncluded included dep = false ∧
        Inherits workflow included dep d := by
  induction h with
  | kept hdeclared hincluded => exact .inl ⟨hdeclared, hincluded⟩
  | @through id dep d hdeclared hexcluded hrest ih =>
    by_cases hself : dep = id
    · subst hself
      exact ih
    · exact .inr ⟨dep, hdeclared, hself, hexcluded, hrest⟩

/-- An excluded node declares another. -/
def Drops (workflow : Workflow) (included : Option (List NodeId)) (id dep : NodeId) : Prop :=
  dep ∈ workflow.declared id ∧ isIncluded included id = false ∧ isIncluded included dep = false

section
variable {workflow : Workflow} {included : Option (List NodeId)}

theorem Workflow.mem_of_declared {id dep : NodeId} (h : dep ∈ workflow.declared id) :
    id ∈ workflow.nodes.map (·.id) := by
  unfold Workflow.declared at h
  cases hnode : workflow.byId id with
  | none => simp [hnode] at h
  | some node =>
    obtain ⟨hmem, hid⟩ := Workflow.byId_some hnode
    exact List.mem_map.mpr ⟨node, hmem, hid⟩

/-- The node an id names declares what its own file entry does. -/
theorem declared_eq (hdistinct : workflow.Distinct) {node : Node} (h : node ∈ workflow.nodes) :
    workflow.declared node.id = node.dependsOn := by
  unfold Workflow.declared
  cases hby : workflow.byId node.id with
  | none =>
    have hnone := List.find?_eq_none.mp hby node (List.mem_reverse.mpr h)
    simp at hnone
  | some other =>
    obtain ⟨hmem, hid⟩ := Workflow.byId_some hby
    rw [eq_of_id hdistinct hmem h hid]
    rfl

/-! ## The walk answers all of it -/

/-- A memo whose every answer holds all its node inherits. -/
def MemoFull (workflow : Workflow) (included : Option (List NodeId)) (memo : Memo) : Prop :=
  ∀ (id : NodeId) deps, memo[id]? = some deps → ∀ d, Inherits workflow included id d → d ∈ deps

/-- What a walk from `id` over `memo` answers: all that `id` inherits, beside a memo that is still
    full and has an answer wherever `memo` had one. -/
structure Answers (workflow : Workflow) (included : Option (List NodeId)) (memo : Memo)
    (id : NodeId) (result : List NodeId × Memo) : Prop where
  all : ∀ d, Inherits workflow included id d → d ∈ result.1
  full : MemoFull workflow included result.2
  grows : ∀ a : NodeId, memo[a]?.isSome → result.2[a]?.isSome

theorem MemoFull.insert {memo : Memo} (h : MemoFull workflow included memo) {id : NodeId}
    {out : List NodeId} (hout : ∀ d, Inherits workflow included id d → d ∈ out) :
    MemoFull workflow included (memo.insert id out) := by
  intro a deps hdeps d hd
  rw [OrdMap.getElem?_insert_eq] at hdeps
  split at hdeps
  · next ha =>
    obtain rfl := Option.some.inj hdeps
    subst ha
    exact hout d hd
  · exact h a deps hdeps d hd

theorem isSome_insert {memo : Memo} {id a : NodeId} {out : List NodeId}
    (h : memo[a]?.isSome ∨ id = a) : (memo.insert id out)[a]?.isSome := by
  rw [OrdMap.getElem?_insert_eq]
  split
  · rfl
  · next hne => exact h.resolve_right hne

/-- The fold over what `id` declares, one dependency at a time: each included one is kept, and each
    excluded one but itself leaves what it inherits. -/
theorem foldl_inheritOne_full {inherit : NodeId → Memo → List NodeId × Memo}
    {declared : List NodeId} {id : NodeId} (hself : ∀ memo, (inherit id memo).2 = memo)
    (hinherit : ∀ dep ∈ declared, dep ≠ id → isIncluded included dep = false → ∀ memo,
      MemoFull workflow included memo → Answers workflow included memo dep (inherit dep memo)) :
    ∀ acc : List NodeId × Memo, MemoFull workflow included acc.2 →
      (∀ d, d ∈ acc.1 ∨ (∃ dep ∈ declared, isIncluded included dep = true ∧ d = dep) ∨
          (∃ dep ∈ declared, dep ≠ id ∧ isIncluded included dep = false ∧
            Inherits workflow included dep d) →
        d ∈ (declared.foldl (inheritOne included inherit) acc).1) ∧
      MemoFull workflow included (declared.foldl (inheritOne included inherit) acc).2 ∧
      ∀ a : NodeId, acc.2[a]?.isSome →
        (declared.foldl (inheritOne included inherit) acc).2[a]?.isSome := by
  induction declared with
  | nil => exact fun acc hfull => ⟨fun d hd => by simpa using hd, hfull, fun a ha => ha⟩
  | cons first rest ih =>
    intro acc hfull
    rw [List.foldl_cons]
    have hrest := ih fun dep hdep => hinherit dep (List.mem_cons_of_mem _ hdep)
    cases hinc : isIncluded included first with
    | true =>
      have hone : inheritOne included inherit acc first = (pushUnique acc.1 first, acc.2) := by
        rw [inheritOne, if_pos hinc]
      rw [hone]
      obtain ⟨hmem, hafter, hgrows⟩ := hrest (pushUnique acc.1 first, acc.2) hfull
      refine ⟨fun d hd => hmem d ?_, hafter, hgrows⟩
      rcases hd with hd | ⟨dep, hdep, hkept, rfl⟩ | ⟨dep, hdep, hne, hout, hd⟩
      · exact .inl (mem_pushUnique.mpr (.inl hd))
      · rcases List.mem_cons.mp hdep with rfl | hdep
        · exact .inl (mem_pushUnique.mpr (.inr rfl))
        · exact .inr (.inl ⟨d, hdep, hkept, rfl⟩)
      · rcases List.mem_cons.mp hdep with rfl | hdep
        · rw [hinc] at hout
          cases hout
        · exact .inr (.inr ⟨dep, hdep, hne, hout, hd⟩)
    | false =>
      have hnext : MemoFull workflow included (inherit first acc.2).2 ∧
          ∀ a : NodeId, acc.2[a]?.isSome → (inherit first acc.2).2[a]?.isSome := by
        by_cases hfirst : first = id
        · subst hfirst
          rw [hself]
          exact ⟨hfull, fun a ha => ha⟩
        · have hanswer := hinherit first List.mem_cons_self hfirst hinc acc.2 hfull
          exact ⟨hanswer.full, hanswer.grows⟩
      have hone : inheritOne included inherit acc first =
          ((inherit first acc.2).1.foldl pushUnique acc.1, (inherit first acc.2).2) := by
        rw [inheritOne, if_neg (by simp [hinc])]
      rw [hone]
      obtain ⟨hmem, hafter, hgrows⟩ := hrest
        ((inherit first acc.2).1.foldl pushUnique acc.1, (inherit first acc.2).2) hnext.1
      refine ⟨fun d hd => hmem d ?_, hafter, fun a ha => hgrows a (hnext.2 a ha)⟩
      rcases hd with hd | ⟨dep, hdep, hkept, rfl⟩ | ⟨dep, hdep, hne, hout, hd⟩
      · exact .inl (mem_foldl_pushUnique.mpr (.inl hd))
      · rcases List.mem_cons.mp hdep with rfl | hdep
        · rw [hinc] at hkept
          cases hkept
        · exact .inr (.inl ⟨d, hdep, hkept, rfl⟩)
      · rcases List.mem_cons.mp hdep with rfl | hdep
        · have hanswer := hinherit dep List.mem_cons_self hne hinc acc.2 hfull
          exact .inl (mem_foldl_pushUnique.mpr (.inr (hanswer.all d hd)))
        · exact .inr (.inr ⟨dep, hdep, hne, hout, hd⟩)

/-- A node met again where its own walk is inside leaves the memo as it is. -/
theorem effectiveDependencies_visited (fuel : Nat) {id : NodeId} {visiting : List NodeId}
    (h : id ∈ visiting) (memo : Memo) :
    (effectiveDependencies workflow included fuel id memo visiting).2 = memo := by
  cases fuel with
  | zero => rfl
  | succ fuel =>
    unfold effectiveDependencies
    split
    · rfl
    · rw [if_pos h]

/-- **A walk answers all its node inherits**, whatever the walk already visited: no excluded node is
    met twice but where it declares itself, and the fuel outlasts the nodes there are. -/
theorem effectiveDependencies_answers
    (hcycle : Precedence.Acyclic (Precedence.Apart (Drops workflow included))) (fuel : Nat) :
    ∀ (id : NodeId) (memo : Memo) (visiting : List NodeId), MemoFull workflow included memo →
      visiting.Nodup → visiting ⊆ workflow.nodes.map (·.id) →
      workflow.nodes.length < fuel + visiting.length → id ∉ visiting →
      (∀ v ∈ visiting, isIncluded included v = false →
        isIncluded included id = false ∧
          TransGen (Precedence.Apart (Drops workflow included)) v id) →
      Answers workflow included memo id
        (effectiveDependencies workflow included fuel id memo visiting) ∧
      (effectiveDependencies workflow included fuel id memo visiting).2[id]?.isSome := by
  induction fuel with
  | zero =>
    intro id memo visiting hfull hnodup hsub hfuel
    -- more ids visited than there are nodes
    have hle := (hnodup.subperm hsub).length_le
    rw [List.length_map] at hle
    omega
  | succ fuel ih =>
    intro id memo visiting hfull hnodup hsub hfuel hnew hchain
    unfold effectiveDependencies
    split
    · next deps hget =>
      exact ⟨⟨fun d hd => hfull id deps hget d hd, hfull, fun a ha => ha⟩, by simp [hget]⟩
    rw [if_neg hnew]
    have hinherit : ∀ dep ∈ workflow.declared id, dep ≠ id → isIncluded included dep = false →
        ∀ memo, MemoFull workflow included memo → Answers workflow included memo dep
          (effectiveDependencies workflow included fuel dep memo (visiting ++ [id])) := by
      intro dep hdep hne hout memo hmemo
      have hback : ∀ v ∈ visiting ++ [id], isIncluded included v = false →
          TransGen (Precedence.Apart (Drops workflow included)) v dep := by
        intro v hv hvout
        rcases List.mem_append.mp hv with hv | hv
        · obtain ⟨hidout, hpath⟩ := hchain v hv hvout
          exact hpath.tail ⟨⟨hdep, hidout, hout⟩, Ne.symm hne⟩
        · obtain rfl := List.mem_singleton.mp hv
          exact .single ⟨⟨hdep, hvout, hout⟩, Ne.symm hne⟩
      refine (ih dep memo (visiting ++ [id]) hmemo ?_ ?_ ?_ ?_ ?_).1
      · exact List.nodup_append.mpr ⟨hnodup, List.nodup_singleton id, fun a ha b hb => by
          rw [List.mem_singleton.mp hb]
          exact fun he => hnew (he ▸ ha)⟩
      · exact List.append_subset.mpr
          ⟨hsub, by simpa using Workflow.mem_of_declared hdep⟩
      · rw [List.length_append, List.length_singleton]
        omega
      · exact fun hmem => hcycle dep (hback dep hmem hout)
      · exact fun v hv hvout => ⟨hout, hback v hv hvout⟩
    obtain ⟨hmem, hafter, hgrows⟩ := foldl_inheritOne_full
      (effectiveDependencies_visited fuel (List.mem_append_right _ List.mem_cons_self)) hinherit
      ([], memo) hfull
    have hall : ∀ d, Inherits workflow included id d →
        d ∈ ((workflow.declared id).foldl (inheritOne included fun dep memo =>
          effectiveDependencies workflow included fuel dep memo (visiting ++ [id]))
            ([], memo)).1 := by
      intro d hd
      refine hmem d ?_
      rcases hd.apart with ⟨hdep, hkept⟩ | ⟨dep, hdep, hne, hout, hrest⟩
      · exact .inr (.inl ⟨d, hdep, hkept, rfl⟩)
      · exact .inr (.inr ⟨dep, hdep, hne, hout, hrest⟩)
    exact ⟨⟨hall, hafter.insert hall, fun a ha => isSome_insert (.inl (hgrows a ha))⟩,
      isSome_insert (.inr rfl)⟩

/-- **An included node waits on all it inherits.** -/
theorem depends_of_inherits
    (hcycle : Precedence.Acyclic (Precedence.Apart (Drops workflow included))) {node : Node}
    (hnode : node ∈ workflow.nodes) (hincluded : isIncluded included node.id = true) :
    ∃ deps, (dependenciesInMode workflow included)[node.id]? = some deps ∧
      ∀ d, Inherits workflow included node.id d → d ∈ deps := by
  have hfold : ∀ (nodes : List Node) (memo : Memo), MemoFull workflow included memo →
      MemoFull workflow included (nodes.foldl (fun memo node =>
        (effectiveDependencies workflow included (workflow.nodes.length + 1) node.id memo []).2)
          memo) ∧
      ∀ a : NodeId, (memo[a]?.isSome ∨ ∃ n ∈ nodes, n.id = a) →
        (nodes.foldl (fun memo node =>
          (effectiveDependencies workflow included (workflow.nodes.length + 1) node.id memo []).2)
            memo)[a]?.isSome := by
    intro nodes
    induction nodes with
    | nil => exact fun memo hfull => ⟨hfull, fun a ha => by simpa using ha⟩
    | cons first rest ih =>
      intro memo hfull
      obtain ⟨hfirst, hown⟩ := effectiveDependencies_answers hcycle (workflow.nodes.length + 1)
        first.id memo [] hfull List.nodup_nil (List.nil_subset _) (by simp) List.not_mem_nil
        (fun v hv => absurd hv List.not_mem_nil)
      obtain ⟨hrest, hmem⟩ := ih _ hfirst.full
      refine ⟨hrest, fun a ha => hmem a ?_⟩
      rcases ha with ha | ⟨n, hn, rfl⟩
      · exact .inl (hfirst.grows a ha)
      · rcases List.mem_cons.mp hn with rfl | hn
        · exact .inl hown
        · exact .inr ⟨n, hn, rfl⟩
  have hempty : MemoFull workflow included ∅ := by
    intro id deps hnone
    simp at hnone
  obtain ⟨hfull, hmem⟩ := hfold
    (workflow.nodes.filter fun node => isIncluded included node.id) ∅ hempty
  obtain ⟨deps, hdeps⟩ := Option.isSome_iff_exists.mp
    (hmem node.id (.inr ⟨node, List.mem_filter.mpr ⟨hnode, hincluded⟩, rfl⟩))
  refine ⟨deps, ?_, fun d hd => hfull node.id deps hdeps d hd⟩
  unfold dependenciesInMode
  rw [Std.ExtTreeMap.getElem?_filter', hdeps]
  simp [hincluded]

/-- **And on nothing else.** -/
theorem inherits_of_depends {id dep : NodeId} {deps : List NodeId}
    (h : (dependenciesInMode workflow included)[id]? = some deps) (hdep : dep ∈ deps) :
    Inherits workflow included id dep :=
  dependenciesInMode_of ⟨fun _ _ hdep hinc => .kept hdep hinc,
    fun _ _ hdep hout _ hd => .through hdep hout hd⟩ h hdep

end

end Yunta
