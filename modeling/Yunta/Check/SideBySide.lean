/-
  What may run side by side: the scope rules of a plan and of a workflow's groups.

  1. **Pairs** — `transitivelyRelated` is every pair of tasks with a dependency path between them,
     either way; over a document that declares each task once it is the closure of `depends_on`
     (`mem_related_iff`).

  2. **The rules** — `overlappingScopes` refuses two unrelated tasks, and `parallelScopesFrom` two
     children of one group, that declare globs which might overlap.

  3. **What passing says** — overlap misses one kind of pair (`Shared`): a glob that is `**/` again
     and again selects every path, and its text ends in a `/`, so it does not overlap a glob that
     ends in a name.  The plans and the groups with no such pair are those whose unrelated tasks and
     children select no common path, and no others (`sideBySide_iff`).
-/
import Yunta.Tasks.Shapes
import Yunta.Workflow.Read

set_option linter.unusedVariables false

namespace Yunta

/-! ## The pairs overlap misses -/

section
variable {selects : ScopeGlob → String → Bool} {a b : ScopeGlob}

/-- One glob is nothing but `**/`, and the other ends in a name and selects a path. -/
def Shared (selects : ScopeGlob → String → Bool) (a b : ScopeGlob) : Prop :=
  Recursion a ∧ EndsInName b ∧ (∃ path, selects b path = true) ∨
    Recursion b ∧ EndsInName a ∧ ∃ path, selects a path = true

/-- Some path is selected by both globs. -/
def Meet (selects : ScopeGlob → String → Bool) (a b : ScopeGlob) : Prop :=
  ∃ path, selects a path = true ∧ selects b path = true

theorem Shared.missed (h : Shared selects a b) : Missed a b :=
  h.imp (fun h => ⟨h.1, h.2.1⟩) fun h => ⟨h.1, h.2.1⟩

theorem Shared.meet (hglob : Globset selects) (h : Shared selects a b) : Meet selects a b := by
  rcases h with ⟨ha, -, path, hb⟩ | ⟨hb, -, path, ha⟩
  · exact ⟨path, hglob.everything a path ha, hb⟩
  · exact ⟨path, ha, hglob.everything b path hb⟩

/-- **Two globs that do not overlap meet in the pairs overlap misses, and in no others.** -/
theorem meet_iff_shared (hglob : Globset selects) (hnot : mightOverlap selects a b = false) :
    Meet selects a b ↔ Shared selects a b := by
  refine ⟨?_, Shared.meet hglob⟩
  rintro ⟨path, ha, hb⟩
  rcases mightOverlap_or_missed hglob ha hb with hoverlap | hmissed
  · rw [hnot] at hoverlap
    cases hoverlap
  · exact hmissed.imp (fun h => ⟨h.1, h.2, path, hb⟩) fun h => ⟨h.1, h.2, path, ha⟩

/-- **Where overlap misses no pair**: two globs that meet overlap, unless they are such a pair. -/
theorem overlaps_iff (hglob : Globset selects) :
    (∀ path, selects a path = true → selects b path = true → mightOverlap selects a b = true) ↔
      ¬ Shared selects a b := by
  constructor
  · intro h hshared
    obtain ⟨path, ha, hb⟩ := hshared.meet hglob
    have hoverlap := h path ha hb
    rw [mightOverlap_of_missed hglob hshared.missed] at hoverlap
    cases hoverlap
  · intro hnot path ha hb
    by_contra hoverlap
    exact hnot ((meet_iff_shared hglob (Bool.eq_false_iff.mpr hoverlap)).mp ⟨path, ha, hb⟩)

end

/-! ## Tasks with no dependency path between them -/

namespace TaskRules

open Owned (depends)
open Relation (TransGen)

/-- The transitive closure of `depends_on`, in either direction. -/
def transitivelyRelated (tasks : List Task) : List (TaskId × TaskId) :=
  tasks.flatMap fun task =>
    let fuel := (tasks.flatMap (·.dependsOn)).length + 1
    (Visit.mark (depends tasks) fuel [task.id] []).flatMap fun dep =>
      [(task.id, dep), (dep, task.id)]

/-- Two tasks with no dependency path between them, the first of them the `index`-th of the
    document, declare globs that might overlap. -/
structure OverlappingScope where
  index : Nat
  task : TaskId
  glob : ScopeGlob
  other : TaskId
  otherGlob : ScopeGlob
  deriving DecidableEq

/-- The errors of one pair. -/
def overlaps (selects : ScopeGlob → String → Bool) (index : Nat) (a b : Task) :
    List OverlappingScope :=
  a.scope.flatMap fun globA =>
    (b.scope.filter (mightOverlap selects globA)).map fun globB =>
      ⟨index, a.id, globA, b.id, globB⟩

/-- Two tasks with no dependency path between them, in either direction, must not declare
    overlapping scopes. -/
def overlappingScopes (selects : ScopeGlob → String → Bool) (tasks : List Task) :
    List OverlappingScope :=
  let related := transitivelyRelated tasks
  tasks.zipIdx.flatMap fun (a, i) => (tasks.drop (i + 1)).flatMap fun b =>
    if related.contains (a.id, b.id) then [] else overlaps selects i a b

/-- What a task waits on is written in the document. -/
theorem depends_written (tasks : List Task) (id dep : TaskId) (h : dep ∈ depends tasks id) :
    dep ∈ tasks.flatMap (·.dependsOn) := by
  unfold depends at h
  cases hfind : tasks.reverse.find? (·.id = id) with
  | none =>
    rw [hfind] at h
    exact absurd h List.not_mem_nil
  | some task =>
    rw [hfind] at h
    have hmem := List.mem_reverse.mp (List.mem_of_find?_eq_some hfind)
    exact List.mem_flatMap.mpr ⟨task, hmem, h⟩

/-- **Related tasks** are those with a dependency path between them, either way. -/
theorem mem_related_iff {document : TasksFile} (h : document.DeclaredOnce) {a b : Task}
    (ha : a ∈ document.tasks) (hb : b ∈ document.tasks) :
    (a.id, b.id) ∈ transitivelyRelated document.tasks ↔
      TransGen document.DependsOn a.id b.id ∨ TransGen document.DependsOn b.id a.id := by
  have hnext : Visit.Next (depends document.tasks) = document.DependsOn :=
    funext fun x => funext fun y => propext (Owned.next_iff h)
  have hmark : ∀ id dep : TaskId,
      dep ∈ Visit.mark (depends document.tasks)
        ((document.tasks.flatMap (·.dependsOn)).length + 1) [id] [] ↔
        TransGen document.DependsOn id dep := by
    intro id dep
    rw [Visit.mem_mark (depends document.tasks) (depends_written _) (Nat.lt_succ_self _), hnext]
  simp only [transitivelyRelated, List.mem_flatMap, hmark, List.mem_cons, List.not_mem_nil,
    or_false, Prod.mk.injEq]
  constructor
  · rintro ⟨task, -, dep, hreach, ⟨hid, hdep⟩ | ⟨hdep, hid⟩⟩
    · exact .inl (hid ▸ hdep ▸ hreach)
    · exact .inr (hid ▸ hdep ▸ hreach)
  · rintro (hreach | hreach)
    · exact ⟨a, ha, b.id, hreach, .inl ⟨rfl, rfl⟩⟩
    · exact ⟨b, hb, a.id, hreach, .inr ⟨rfl, rfl⟩⟩

/-- Two tasks of a document with no dependency path between them. -/
def Unrelated (document : TasksFile) (a b : Task) : Prop :=
  a ∈ document.tasks ∧ b ∈ document.tasks ∧ a.id ≠ b.id ∧
    ¬ TransGen document.DependsOn a.id b.id ∧ ¬ TransGen document.DependsOn b.id a.id

/-- No error of the rule means no two globs of two unrelated tasks overlap. -/
theorem not_overlap_of_check {selects : ScopeGlob → String → Bool} {document : TasksFile}
    (hglob : Globset selects) (hdeclared : document.DeclaredOnce)
    (hcheck : overlappingScopes selects document.tasks = []) {a b : Task}
    (h : Unrelated document a b) {globA globB : ScopeGlob} (hga : globA ∈ a.scope)
    (hgb : globB ∈ b.scope) : mightOverlap selects globA globB = false := by
  -- the pair is judged once, with the task that stands first in front
  have hjudged : ∀ {a b : Task} {i j : Nat}, document.tasks[i]? = some a →
      document.tasks[j]? = some b → i < j → Unrelated document a b →
      ∀ globA ∈ a.scope, ∀ globB ∈ b.scope, mightOverlap selects globA globB = false := by
    rintro a b i j hi hj hlt ⟨ha, hb, -, hab, hba⟩ globA hga globB hgb
    have hdrop : b ∈ document.tasks.drop (i + 1) := by
      refine List.mem_iff_getElem?.mpr ⟨j - (i + 1), ?_⟩
      rw [List.getElem?_drop, show i + 1 + (j - (i + 1)) = j by omega]
      exact hj
    have hnone := List.flatMap_eq_nil_iff.mp (List.flatMap_eq_nil_iff.mp hcheck (a, i)
      (List.mem_zipIdx_iff_getElem?.mpr hi)) b hdrop
    have hrelated : (transitivelyRelated document.tasks).contains (a.id, b.id) = false := by
      rw [← Bool.not_eq_true, List.contains_iff_mem, mem_related_iff hdeclared ha hb, not_or]
      exact ⟨hab, hba⟩
    rw [hrelated, if_neg (by decide)] at hnone
    have hfilter := List.map_eq_nil_iff.mp (List.flatMap_eq_nil_iff.mp hnone globA hga)
    exact (Bool.not_eq_true _).mp (List.filter_eq_nil_iff.mp hfilter globB hgb)
  obtain ⟨ha, hb, hne, hab, hba⟩ := h
  obtain ⟨i, hi⟩ := List.mem_iff_getElem?.mp ha
  obtain ⟨j, hj⟩ := List.mem_iff_getElem?.mp hb
  rcases Nat.lt_trichotomy i j with hlt | rfl | hlt
  · exact hjudged hi hj hlt ⟨ha, hb, hne, hab, hba⟩ globA hga globB hgb
  · exact absurd (congrArg (·.id) (Option.some.inj (hi.symm.trans hj))) hne
  · rw [mightOverlap_comm hglob]
    exact hjudged hj hi hlt ⟨hb, ha, hne.symm, hba, hab⟩ globB hgb globA hga

end TaskRules

/-! ## Children of one group -/

namespace Written

variable {selects : ScopeGlob → String → Bool}

/-- No two globs of the two nodes overlap. -/
def NoOverlap (selects : ScopeGlob → String → Bool) (a b : Node) : Prop :=
  ∀ globA ∈ a.scope.overlapGlobs, ∀ globB ∈ b.scope.overlapGlobs,
    mightOverlap selects globA globB = false

theorem noOverlap_of_pairs {index : Nat} {group : NodeId} {children : List Node}
    (h : scopePairs selects index group children = []) : children.Pairwise (NoOverlap selects) := by
  induction children with
  | nil => exact .nil
  | cons a rest ih =>
    obtain ⟨hfirst, hrest⟩ := List.append_eq_nil_iff.mp h
    refine .cons (fun b hb globA hga globB hgb => ?_) (ih hrest)
    have hnone := List.flatMap_eq_nil_iff.mp (List.flatMap_eq_nil_iff.mp hfirst b hb) globA hga
    exact (Bool.not_eq_true _).mp
      (List.filter_eq_nil_iff.mp (List.map_eq_nil_iff.mp hnone) globB hgb)

mutual

theorem noOverlap_of_node : ∀ (index : Nat) (node : Node), nodeScopes selects index node = [] →
    ∀ group ∈ nodeAndNested node, group.kind.children.Pairwise (NoOverlap selects)
  | index, ⟨id, kind, deps, scope, runner, runners, produces, before, after, onFailure, context,
      invariant, optional⟩, hcheck, group, hgroup => by
    replace hcheck : kindScopes selects index id kind = [] := hcheck
    rw [nodeAndNested_eq] at hgroup
    rcases List.mem_cons.mp hgroup with rfl | hnested
    · cases kind with
      | parallel children => exact noOverlap_of_pairs (List.append_eq_nil_iff.mp hcheck).1
      | _ => exact .nil
    · exact noOverlap_of_kind index id kind hcheck group hnested

theorem noOverlap_of_kind : ∀ (index : Nat) (id : NodeId) (kind : NodeKind),
    kindScopes selects index id kind = [] → ∀ group ∈ kindNested kind,
      group.kind.children.Pairwise (NoOverlap selects)
  | index, id, .parallel children, hcheck, group, hgroup =>
    noOverlap_of_list 0 children (List.append_eq_nil_iff.mp hcheck).2 group hgroup
  | _, _, .prompt, _, _, hgroup | _, _, .bash _, _, _, hgroup | _, _, .loop, _, _, hgroup
  | _, _, .check _, _, _, hgroup | _, _, .executor _, _, _, hgroup
  | _, _, .gate _ _ _, _, _, hgroup | _, _, .workflow _, _, _, hgroup
  | _, _, .pullRequest, _, _, hgroup => absurd hgroup List.not_mem_nil

/-- No error of the rule means no two globs of two children of a group overlap, in any group at any
    depth. -/
theorem noOverlap_of_list : ∀ (index : Nat) (nodes : List Node),
    parallelScopesFrom selects index nodes = [] → ∀ group ∈ nodesAndNested nodes,
      group.kind.children.Pairwise (NoOverlap selects)
  | _, [], _, group, hgroup => absurd hgroup List.not_mem_nil
  | index, node :: rest, hcheck, group, hgroup => by
    obtain ⟨hfirst, hrest⟩ := List.append_eq_nil_iff.mp hcheck
    rcases List.mem_append.mp hgroup with hgroup | hgroup
    · exact noOverlap_of_node index node hfirst group hgroup
    · exact noOverlap_of_list (index + 1) rest hrest group hgroup

end

end Written

/-! ## What passing says -/

/-- No path is selected by a glob of the one list and by a glob of the other. -/
def Apart (selects : ScopeGlob → String → Bool) (as bs : List ScopeGlob) : Prop :=
  ∀ globA ∈ as, ∀ globB ∈ bs, ¬ Meet selects globA globB

/-- No glob of the one list and glob of the other are a pair overlap misses. -/
def NoneShared (selects : ScopeGlob → String → Bool) (as bs : List ScopeGlob) : Prop :=
  ∀ globA ∈ as, ∀ globB ∈ bs, ¬ Shared selects globA globB

theorem apart_iff_noneShared {selects : ScopeGlob → String → Bool} (hglob : Globset selects)
    {as bs : List ScopeGlob}
    (h : ∀ globA ∈ as, ∀ globB ∈ bs, mightOverlap selects globA globB = false) :
    Apart selects as bs ↔ NoneShared selects as bs :=
  forall₄_congr fun _ ha _ hb => not_congr (meet_iff_shared hglob (h _ ha _ hb))

/-- **Side by side.**  For every matcher that does as documented: two globs that meet overlap, in
    every pair but those overlap misses; two tasks of a plan the rule passes, with no dependency
    path between them, select no common path exactly when none of their globs is such a pair; and
    so do two children of one group of a workflow the rule passes. -/
theorem sideBySide_iff (selects : ScopeGlob → String → Bool) (hglob : Globset selects) :
    (∀ a b, (∀ path, selects a path = true → selects b path = true →
      mightOverlap selects a b = true) ↔ ¬ Shared selects a b) ∧
    (∀ document : TasksFile, document.DeclaredOnce →
      TaskRules.overlappingScopes selects document.tasks = [] →
        ∀ a b, TaskRules.Unrelated document a b →
          (Apart selects a.scope b.scope ↔ NoneShared selects a.scope b.scope)) ∧
    (∀ workflow : Written.Workflow,
      Written.parallelScopesFrom selects 0 workflow.nodes = [] →
        ∀ group ∈ workflow.iterNodes, group.kind.children.Pairwise fun a b =>
          (Apart selects a.scope.overlapGlobs b.scope.overlapGlobs ↔
            NoneShared selects a.scope.overlapGlobs b.scope.overlapGlobs)) :=
  ⟨fun a b => overlaps_iff hglob,
    fun document hdeclared hcheck a b h => apart_iff_noneShared hglob
      fun _ ha _ hb => TaskRules.not_overlap_of_check hglob hdeclared hcheck h ha hb,
    fun workflow hcheck group hgroup =>
      (Written.noOverlap_of_list 0 workflow.nodes hcheck group hgroup).imp
        fun hnone => apart_iff_noneShared hglob hnone⟩

/-- A plan of two tasks that wait on nothing, with trees of their own. -/
def twoTrees : TasksFile :=
  ⟨[⟨"core", ["src/**"], [], [], [], []⟩, ⟨"guide", ["docs/**"], [], [], [], []⟩], [], []⟩

theorem twoTrees_unrelated : TaskRules.Unrelated twoTrees ⟨"core", ["src/**"], [], [], [], []⟩
    ⟨"guide", ["docs/**"], [], [], [], []⟩ := by
  have hnone : ∀ id dep, ¬ Relation.TransGen twoTrees.DependsOn id dep := by
    intro id dep hreach
    obtain ⟨_, ⟨task, htask, -, hdep⟩, -⟩ := Relation.TransGen.head'_iff.mp hreach
    rcases List.mem_cons.mp htask with rfl | htask
    · cases hdep
    · obtain rfl := List.mem_singleton.mp htask
      cases hdep
  exact ⟨List.mem_cons_self, List.mem_cons_of_mem _ List.mem_cons_self, by decide, hnone _ _,
    hnone _ _⟩

/-- The rule passes the two trees, and no path is in both. -/
theorem sideBySide_twoTrees : Apart plainSelects ["src/**"] ["docs/**"] := by
  refine ((sideBySide_iff plainSelects plainSelects_globset).2.1 twoTrees (by decide)
    (by decide +kernel) _ _ twoTrees_unrelated).mpr ?_
  intro globA ha globB hb hshared
  obtain rfl := List.mem_singleton.mp ha
  obtain rfl := List.mem_singleton.mp hb
  exact absurd hshared.missed (by decide +kernel)

/-- **A pair overlap misses**: `**/` selects every path, `src/a.rs` among them, and does not overlap
    `src/*.rs`. -/
theorem not_sideBySide : ¬ ∀ selects, Globset selects → ∀ a b path, selects a path = true →
    selects b path = true → mightOverlap selects a b = true := by
  intro h
  exact absurd (h plainSelects plainSelects_globset "**/" "src/*.rs" "src/a.rs" (by decide +kernel)
    (by decide +kernel)) (by decide +kernel)

end Yunta
