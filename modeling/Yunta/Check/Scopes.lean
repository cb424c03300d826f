/-
  Who may write the same files at once: what a workflow file alone proves of it.

  1. **Pairs** — `independentTopLevelPairs` answers the pairs of top-level nodes with no dependency
     path between them, either way; a dependency on a group's child counts as one on the group.
     Whatever its walk finds is a path (`walk_sound`), so a pair with none is answered
     (`mem_pairs`).

  2. **The check** — `checkFanoutScopes` refuses two of a pair that may write and declare scopes
     that might overlap.  Where it finds no error, and overlap misses no pair of globs, those of two
     unordered writers select no common path (`no_common_of_check`).
-/
import Yunta.Lib.OrdMap
import Yunta.Scope.Glob
import Yunta.Workflow.Nesting
import Mathlib.Data.List.Lattice

set_option linter.unusedVariables false

namespace Yunta

open Relation (TransGen)

/-! ## Independent pairs -/

/-- Any id, a group's child included, to the top-level index it belongs to. -/
def ownerOf (nodes : List Node) : OrdMap NodeId Nat :=
  nodes.zipIdx.foldl (fun owner entry =>
    (nodeAndNested entry.1).foldl (fun owner node => owner.insert node.id entry.2) owner) ∅

/-- Every top-level index each one transitively depends on, and those the walk is inside of. -/
structure Reach where
  reachable : List (List Nat)
  visiting : List Bool

namespace Fanout

variable (nodes : List Node) (owner : OrdMap NodeId Nat)

/-- The top-level indices a node's dependencies belong to. -/
def depsAt (i : Nat) : List Nat :=
  (nodes[i]?.map fun node => node.dependsOn.filterMap (owner[·]?)).getD []

/-- One dependency of `i`: what `walk` finds under it is reachable from `i` too. -/
def reachOne (walk : Nat → Reach → Reach) (i : Nat) (reach : Reach) (dep : Nat) : Reach :=
  if dep = i then reach
  else
    let reach := walk dep reach
    let transitively := reach.reachable.getD dep []
    { reach with
      reachable := reach.reachable.set i (reach.reachable.getD i [] ∪ dep :: transitively) }

/-- Fills in what `i` reaches.  A walk never enters an index it is inside of, so `fuel` above the
    number of nodes is never used up. -/
def walk : Nat → Nat → Reach → Reach
  | 0, _, reach => reach
  | fuel + 1, i, reach =>
    let resolved := !(reach.reachable.getD i []).isEmpty
    if reach.visiting.getD i false || resolved then reach
    else
      let reach := { reach with visiting := reach.visiting.set i true }
      let reach := (depsAt nodes owner i).foldl (reachOne (walk fuel) i) reach
      { reach with visiting := reach.visiting.set i false }

end Fanout

open Fanout

/-- What every top-level node transitively depends on, by index. -/
def reachableFrom (nodes : List Node) : List (List Nat) :=
  let owner := ownerOf nodes
  let start : Reach := ⟨List.replicate nodes.length [], List.replicate nodes.length false⟩
  ((List.range nodes.length).foldl (fun reach i =>
    Fanout.walk nodes owner (nodes.length + 1) i reach) start).reachable

/-- The pairs of top-level nodes with no dependency path between them in either direction. -/
def independentTopLevelPairs (workflow : Workflow) : List (Nat × Nat) :=
  let reachable := reachableFrom workflow.nodes
  let count := workflow.nodes.length
  (List.range count).flatMap fun i =>
    ((List.range' (i + 1) (count - (i + 1))).filter fun j =>
      !(reachable.getD i []).contains j && !(reachable.getD j []).contains i).map fun j => (i, j)

/-- Two nodes that may run at once declare scopes that might reach the same files. -/
structure OverlappingFanOutScope where
  a : NodeId
  b : NodeId
  globA : ScopeGlob
  globB : ScopeGlob
  deriving DecidableEq

/-- The errors of one pair: each glob of the one that might overlap a glob of the other. -/
def overlapsOf (selects : ScopeGlob → String → Bool) (a b : Node) : List OverlappingFanOutScope :=
  if a.writesWorktree && b.writesWorktree then
    a.scope.overlapGlobs.flatMap fun globA =>
      (b.scope.overlapGlobs.filter fun globB => mightOverlap selects globA globB).map fun globB =>
        ⟨a.id, b.id, globA, globB⟩
  else []

/-- Overlapping declared scopes on an unordered pair, where nodes run side by side at all. -/
def checkFanoutScopes (selects : ScopeGlob → String → Bool) (workflow : Workflow)
    (maxParallelNodes : Nat) : List OverlappingFanOutScope :=
  if maxParallelNodes ≤ 1 then []
  else
    (independentTopLevelPairs workflow).flatMap fun pair =>
      match workflow.nodes[pair.1]?, workflow.nodes[pair.2]? with
      | some a, some b => overlapsOf selects a b
      | _, _ => []

/-! ## What the walk finds is a path -/

section
variable {workflow : Workflow}

/-- An index an id belongs to holds a node that nests it. -/
theorem ownerOf_sound {nodes : List Node} {id : NodeId} {i : Nat}
    (h : (ownerOf nodes)[id]? = some i) :
    ∃ node, nodes[i]? = some node ∧ ∃ nested ∈ nodeAndNested node, nested.id = id := by
  let Sound : OrdMap NodeId Nat → Prop := fun owner =>
    ∀ (id : NodeId) i, owner[id]? = some i →
      ∃ node, nodes[i]? = some node ∧ ∃ nested ∈ nodeAndNested node, nested.id = id
  have hclaim : ∀ (node : Node) (i : Nat), nodes[i]? = some node → ∀ claimed : List Node,
      claimed ⊆ nodeAndNested node → ∀ owner, Sound owner →
      Sound (claimed.foldl (fun owner node => owner.insert node.id i) owner) := by
    intro node i hnode claimed
    induction claimed with
    | nil => exact fun _ owner howner => howner
    | cons first rest ih =>
      intro hsub owner howner
      refine ih (fun n hn => hsub (List.mem_cons_of_mem _ hn)) _ ?_
      intro id j hj
      rw [OrdMap.getElem?_insert_eq] at hj
      split at hj
      · next hid =>
        obtain rfl := Option.some.inj hj
        exact ⟨node, hnode, first, hsub List.mem_cons_self, hid⟩
      · exact howner id j hj
  have hall : ∀ entries : List (Node × Nat), (∀ entry ∈ entries, nodes[entry.2]? = some entry.1) →
      ∀ owner, Sound owner → Sound (entries.foldl (fun owner entry =>
        (nodeAndNested entry.1).foldl (fun owner node => owner.insert node.id entry.2) owner)
          owner) := by
    intro entries
    induction entries with
    | nil => exact fun _ owner howner => howner
    | cons entry rest ih =>
      intro hentries owner howner
      exact ih (fun e he => hentries e (List.mem_cons_of_mem _ he)) _
        (hclaim entry.1 entry.2 (hentries entry List.mem_cons_self) _ (List.Subset.refl _) owner
          howner)
  refine hall nodes.zipIdx ?_ ∅ ?_ id i h
  · rintro ⟨node, j⟩ hentry
    exact List.mem_zipIdx_iff_getElem?.mp hentry
  · intro id i hnone
    simp at hnone

/-- Whatever is found reachable, is. -/
def Reach.Sound (workflow : Workflow) (reach : Reach) : Prop :=
  ∀ i j, j ∈ reach.reachable.getD i [] → ∃ a b, workflow.nodes[i]? = some a ∧
    workflow.nodes[j]? = some b ∧ TransGen workflow.Waits a.id b.id

/-- A dependency belongs to a top-level node the one that declares it waits on. -/
theorem waits_of_depsAt {i dep : Nat}
    (h : dep ∈ depsAt workflow.nodes (ownerOf workflow.nodes) i) :
    ∃ a b, workflow.nodes[i]? = some a ∧ workflow.nodes[dep]? = some b ∧
      workflow.Waits a.id b.id := by
  unfold depsAt at h
  cases ha : workflow.nodes[i]? with
  | none => simp [ha] at h
  | some a =>
    rw [ha] at h
    obtain ⟨id, hid, howner⟩ := List.mem_filterMap.mp h
    obtain ⟨b, hb, nested, hnested, hnid⟩ := ownerOf_sound howner
    exact ⟨a, b, rfl, hb, a, List.mem_of_getElem? ha, rfl, id, hid, b, List.mem_of_getElem? hb,
      rfl, nested, hnested, hnid⟩

/-- What one dependency adds is a path through it. -/
theorem reachOne_sound {walk : Nat → Reach → Reach}
    (hwalk : ∀ dep reach, Reach.Sound workflow reach → Reach.Sound workflow (walk dep reach))
    {i dep : Nat} (hdep : dep ∈ depsAt workflow.nodes (ownerOf workflow.nodes) i) {reach : Reach}
    (h : Reach.Sound workflow reach) : Reach.Sound workflow (reachOne walk i reach dep) := by
  unfold reachOne
  split
  · exact h
  have hunder := hwalk dep reach h
  obtain ⟨a, b, ha, hb, hwaits⟩ := waits_of_depsAt hdep
  intro k j hj
  by_cases hk : k = i
  · subst hk
    rw [List.getD_eq_getElem?_getD, List.getElem?_set] at hj
    split at hj
    · split at hj
      · rcases List.mem_union_iff.mp hj with hj | hj
        · exact hunder k j hj
        rcases List.mem_cons.mp hj with rfl | hj
        · exact ⟨a, b, ha, hb, .single hwaits⟩
        · obtain ⟨b', c, hb', hc, hpath⟩ := hunder dep j hj
          obtain rfl := Option.some.inj (hb.symm.trans hb')
          exact ⟨a, c, ha, hc, .head hwaits hpath⟩
      · simp at hj
    · next hne => exact absurd rfl hne
  · refine hunder k j ?_
    simpa only [List.getD_eq_getElem?_getD, List.getElem?_set_ne (Ne.symm hk)] using hj

/-- **Whatever the walk finds is a path.** -/
theorem walk_sound (fuel : Nat) : ∀ (i : Nat) (reach : Reach), Reach.Sound workflow reach →
    Reach.Sound workflow (Fanout.walk workflow.nodes (ownerOf workflow.nodes) fuel i reach) := by
  induction fuel with
  | zero => exact fun i reach h => h
  | succ fuel ih =>
    intro i reach h
    have hfold : ∀ deps : List Nat, deps ⊆ depsAt workflow.nodes (ownerOf workflow.nodes) i →
        ∀ reach, Reach.Sound workflow reach → Reach.Sound workflow (deps.foldl
          (reachOne (Fanout.walk workflow.nodes (ownerOf workflow.nodes) fuel) i) reach) := by
      intro deps
      induction deps with
      | nil => exact fun _ reach h => h
      | cons dep rest ihrest =>
        intro hsub reach h
        exact ihrest (fun d hd => hsub (List.mem_cons_of_mem _ hd)) _
          (reachOne_sound ih (hsub List.mem_cons_self) h)
    unfold Fanout.walk
    dsimp only
    split
    · exact h
    · exact hfold _ (List.Subset.refl _) { reach with visiting := reach.visiting.set i true } h

theorem reachableFrom_sound :
    Reach.Sound workflow ⟨reachableFrom workflow.nodes, []⟩ := by
  have hfold : ∀ (indices : List Nat) (reach : Reach), Reach.Sound workflow reach →
      Reach.Sound workflow (indices.foldl (fun reach i =>
        Fanout.walk workflow.nodes (ownerOf workflow.nodes) (workflow.nodes.length + 1) i reach)
          reach) := by
    intro indices
    induction indices with
    | nil => exact fun reach h => h
    | cons i rest ih => exact fun reach h => ih _ (walk_sound _ i reach h)
  refine hfold _ _ ?_
  intro i j hj
  rw [List.getD_eq_getElem?_getD, List.getElem?_replicate] at hj
  split at hj <;> simp at hj

/-- **A pair with no path between them is answered.** -/
theorem mem_pairs {i j : Nat} {a b : Node} (ha : workflow.nodes[i]? = some a)
    (hb : workflow.nodes[j]? = some b) (hij : i < j) (hab : ¬ TransGen workflow.Waits a.id b.id)
    (hba : ¬ TransGen workflow.Waits b.id a.id) : (i, j) ∈ independentTopLevelPairs workflow := by
  have hlt : j < workflow.nodes.length := (List.getElem?_eq_some_iff.mp hb).1
  have hnone : ∀ {k l : Nat} {c d : Node}, workflow.nodes[k]? = some c →
      workflow.nodes[l]? = some d → ¬ TransGen workflow.Waits c.id d.id →
      ((reachableFrom workflow.nodes).getD k []).contains l = false := by
    intro k l c d hc hd hpath
    rw [← Bool.not_eq_true, List.contains_iff_mem]
    intro hmem
    obtain ⟨c', d', hc', hd', hreach⟩ := reachableFrom_sound k l hmem
    obtain rfl := Option.some.inj (hc.symm.trans hc')
    obtain rfl := Option.some.inj (hd.symm.trans hd')
    exact hpath hreach
  refine List.mem_flatMap.mpr ⟨i, List.mem_range.mpr (by omega), List.mem_map.mpr ⟨j, ?_, rfl⟩⟩
  refine List.mem_filter.mpr ⟨List.mem_range'_1.mpr (by omega), ?_⟩
  rw [hnone ha hb hab, hnone hb ha hba]
  rfl

/-! ## What the check proves -/

variable {selects : ScopeGlob → String → Bool} {maxParallelNodes : Nat}

/-- No error of a pair means no two of its globs might overlap. -/
theorem not_overlaps_of_check (hcheck : checkFanoutScopes selects workflow maxParallelNodes = [])
    (hmax : 1 < maxParallelNodes) {i j : Nat} (hpair : (i, j) ∈ independentTopLevelPairs workflow)
    {a b : Node} (ha : workflow.nodes[i]? = some a) (hb : workflow.nodes[j]? = some b)
    (hwa : a.writesWorktree = true) (hwb : b.writesWorktree = true) {globA globB : ScopeGlob}
    (hga : globA ∈ a.scope.overlapGlobs) (hgb : globB ∈ b.scope.overlapGlobs) :
    mightOverlap selects globA globB = false := by
  rw [checkFanoutScopes, if_neg (by omega), List.flatMap_eq_nil_iff] at hcheck
  have hnone := hcheck _ hpair
  simp only [ha, hb] at hnone
  rw [overlapsOf, if_pos (by rw [hwa, hwb]; rfl), List.flatMap_eq_nil_iff] at hnone
  have hfilter := List.filter_eq_nil_iff.mp (List.map_eq_nil_iff.mp (hnone globA hga)) globB hgb
  exact (Bool.not_eq_true _).mp hfilter

/-- Overlap misses no pair of the globs that two independent writers declare. -/
def MissesNone (workflow : Workflow) : Prop :=
  ∀ pair ∈ independentTopLevelPairs workflow, ∀ a ∈ workflow.nodes[pair.1]?,
    ∀ b ∈ workflow.nodes[pair.2]?, a.writesWorktree = true → b.writesWorktree = true →
      ∀ globA ∈ a.scope.overlapGlobs, ∀ globB ∈ b.scope.overlapGlobs, ¬ Missed globA globB

instance : Decidable (MissesNone workflow) :=
  inferInstanceAs (Decidable (∀ pair ∈ independentTopLevelPairs workflow,
    ∀ a ∈ workflow.nodes[pair.1]?, ∀ b ∈ workflow.nodes[pair.2]?, _ → _ →
      ∀ globA ∈ a.scope.overlapGlobs, ∀ globB ∈ b.scope.overlapGlobs, _))

/-- The globs of an independent pair select no common path. -/
theorem no_common_of_pair (hglob : Globset selects)
    (hcheck : checkFanoutScopes selects workflow maxParallelNodes = [])
    (hmax : 1 < maxParallelNodes) (hmiss : MissesNone workflow) {i j : Nat}
    (hpair : (i, j) ∈ independentTopLevelPairs workflow) {a b : Node}
    (ha : workflow.nodes[i]? = some a) (hb : workflow.nodes[j]? = some b)
    (hwa : a.writesWorktree = true) (hwb : b.writesWorktree = true) {globA globB : ScopeGlob}
    (hga : globA ∈ a.scope.overlapGlobs) (hgb : globB ∈ b.scope.overlapGlobs) {path : String}
    (hpa : selects globA path = true) : selects globB path = false := by
  rw [← Bool.not_eq_true]
  intro hpb
  have hover := not_overlaps_of_check hcheck hmax hpair ha hb hwa hwb hga hgb
  rcases mightOverlap_or_missed hglob hpa hpb with h | h
  · rw [hover] at h
    cases h
  · exact hmiss _ hpair a ha b hb hwa hwb globA hga globB hgb h

/-- **Two unordered writers select no common path** where the check finds no error and overlap
    misses none of their globs. -/
theorem no_common_of_check (hglob : Globset selects)
    (hcheck : checkFanoutScopes selects workflow maxParallelNodes = [])
    (hmax : 1 < maxParallelNodes) (hmiss : MissesNone workflow) {a b : Node}
    (ha : a ∈ workflow.nodes) (hb : b ∈ workflow.nodes) (hne : a.id ≠ b.id)
    (hab : ¬ TransGen workflow.Waits a.id b.id) (hba : ¬ TransGen workflow.Waits b.id a.id)
    (hwa : a.writesWorktree = true) (hwb : b.writesWorktree = true) {globA globB : ScopeGlob}
    (hga : globA ∈ a.scope.overlapGlobs) (hgb : globB ∈ b.scope.overlapGlobs) {path : String}
    (hpa : selects globA path = true) : selects globB path = false := by
  obtain ⟨i, hi⟩ := List.mem_iff_getElem?.mp ha
  obtain ⟨j, hj⟩ := List.mem_iff_getElem?.mp hb
  rcases Nat.lt_trichotomy i j with hlt | rfl | hlt
  · exact no_common_of_pair hglob hcheck hmax hmiss (mem_pairs hi hj hlt hab hba) hi hj hwa hwb
      hga hgb hpa
  · exact absurd (congrArg (·.id) (Option.some.inj (hi.symm.trans hj))) hne
  · rw [← Bool.not_eq_true]
    intro hpb
    have hnone := no_common_of_pair hglob hcheck hmax hmiss (mem_pairs hj hi hlt hba hab) hj hi
      hwb hwa hgb hga hpb
    rw [hpa] at hnone
    cases hnone

end

end Yunta
