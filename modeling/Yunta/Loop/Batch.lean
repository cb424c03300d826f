/-
  Which tasks one iteration of a loop works on at once.

  A task is ready when it is pending and all it depends on is done, or when the log left it running.
  `selectBatch` takes ready tasks in declaration order, up to the loop's concurrency, and passes
  over one whose reach meets the reach of a task already taken.

  1. **Shape** — a batch is a sublist of the document, within the bound, of ready tasks
     (`selectBatch_sublist`, `selectBatch_length`, `mem_selectBatch`).

  2. **Reaches** — two members select no common path where no two ready tasks reach a pair of globs
     that overlap misses (`selectBatch_apart`).

  3. **Progress** — in an acyclic document each task of which is pending, running or done, the batch
     is empty exactly when every task is done (`selectBatch_ne_nil`).
-/
import Yunta.Replay.State
import Yunta.Scope.Glob
import Yunta.Tasks.Document

set_option linter.unusedVariables false

namespace Yunta.Loop

/-! ## Selection -/

/-- The one scope in force for a task's work: its declared `scope:`, then what was granted. -/
def scopeInForce (task : Task) (grants : List ScopeGlob) : List ScopeGlob := task.scope ++ grants

/-- What the run lets `task` write. -/
def reach (state : RunState) (task : Task) : List ScopeGlob :=
  scopeInForce task (state.grants.reachFor task.id)

/-- Whether `task` may be worked on now. -/
def ready (state : RunState) (task : Task) : Bool :=
  match state.tasks.status task.id with
  | some .pending => task.dependsOn.all fun dep => state.tasks.status dep = some .done
  | some .running => true
  | _ => false

/-- Whether two reaches might select the same file. -/
def meet (selects : ScopeGlob → String → Bool) (a b : List ScopeGlob) : Bool :=
  a.any fun glob => reachesAny selects glob b

/-- Up to `concurrency` tasks this iteration may work on, in declaration order. -/
def selectBatch (selects : ScopeGlob → String → Bool) (tasks : TasksFile) (state : RunState)
    (concurrency : Nat) : List Task :=
  Precedence.fill (fun chosen task => meet selects (reach state chosen) (reach state task))
    concurrency [] (tasks.tasks.filter (ready state))

/-- A loop's `concurrency:`, one by default and never less. -/
def concurrencyOf (declared : Option Nat) : Nat := max (declared.getD 1) 1

/-! ## Shape -/

section

variable {selects : ScopeGlob → String → Bool} {tasks : TasksFile} {state : RunState}
  {concurrency : Nat} {task : Task}

/-- **Which tasks are ready**: the pending ones all of whose dependencies are done, and the ones
    left running. -/
theorem ready_iff : ready state task = true ↔
    state.tasks.status task.id = some .running ∨
      state.tasks.status task.id = some .pending ∧
        ∀ dep ∈ task.dependsOn, state.tasks.status dep = some .done := by
  unfold ready
  split
  · next h => simp [h]
  · next h => simp [h]
  · next hpending hrunning =>
    constructor
    · intro h
      cases h
    · rintro (h | ⟨h, -⟩)
      · exact absurd h hrunning
      · exact absurd h hpending

theorem selectBatch_ready :
    (selectBatch selects tasks state concurrency).Sublist (tasks.tasks.filter (ready state)) := by
  obtain ⟨more, hmore, hsub⟩ := Precedence.fill_sublist
    (fun chosen task => meet selects (reach state chosen) (reach state task)) concurrency []
    (tasks.tasks.filter (ready state))
  rw [selectBatch, hmore]
  exact hsub

/-- A batch stands in declaration order. -/
theorem selectBatch_sublist : (selectBatch selects tasks state concurrency).Sublist tasks.tasks :=
  selectBatch_ready.trans List.filter_sublist

/-- A member is a ready task of the document. -/
theorem mem_selectBatch (h : task ∈ selectBatch selects tasks state concurrency) :
    task ∈ tasks.tasks ∧ ready state task = true :=
  List.mem_filter.mp (selectBatch_ready.subset h)

theorem selectBatch_length : (selectBatch selects tasks state concurrency).length ≤ concurrency :=
  Precedence.fill_length _ _ (Nat.zero_le _)

/-! ## Reaches -/

/-- Two tasks that may write no common path. -/
def Apart (selects : ScopeGlob → String → Bool) (state : RunState) (a b : Task) : Prop :=
  ∀ g ∈ reach state a, ∀ g' ∈ reach state b, ∀ path,
    ¬ (selects g path = true ∧ selects g' path = true)

/-- No two ready tasks reach a pair of globs that overlap misses. -/
def NoneMissed (tasks : TasksFile) (state : RunState) : Prop :=
  ∀ a ∈ tasks.tasks, ready state a = true → ∀ b ∈ tasks.tasks, ready state b = true → a ≠ b →
    ∀ g ∈ reach state a, ∀ g' ∈ reach state b, ¬ Missed g g'

/-- Reaches that do not meet select no common path, unless overlap misses a pair of them. -/
theorem apart_of_meet (hglob : Globset selects) {a b : Task}
    (hmeet : meet selects (reach state a) (reach state b) = false)
    (hmissed : ∀ g ∈ reach state a, ∀ g' ∈ reach state b, ¬ Missed g g') :
    Apart selects state a b := by
  rintro g hg g' hg' path ⟨hpg, hpg'⟩
  rcases mightOverlap_or_missed hglob hpg hpg' with hoverlap | hpair
  · rw [Bool.eq_false_iff] at hmeet
    exact hmeet (List.any_eq_true.mpr ⟨g, hg, List.any_eq_true.mpr ⟨g', hg', hoverlap⟩⟩)
  · exact hmissed g hg g' hg' hpair

/-- **No two members select a common path**, where overlap misses no pair the ready tasks reach. -/
theorem selectBatch_apart (hglob : Globset selects) (hdeclared : tasks.DeclaredOnce)
    (hmissed : NoneMissed tasks state) :
    (selectBatch selects tasks state concurrency).Pairwise (Apart selects state) := by
  have hmeets : (selectBatch selects tasks state concurrency).Pairwise fun a b =>
      meet selects (reach state a) (reach state b) = false :=
    Precedence.fill_pairwise _ _ List.Pairwise.nil
  have hnodup : (selectBatch selects tasks state concurrency).Nodup :=
    selectBatch_sublist.nodup (List.Nodup.of_map _ hdeclared)
  refine (hmeets.and hnodup).imp_of_mem ?_
  rintro a b ha hb ⟨hmeet, hne⟩
  obtain ⟨hda, hra⟩ := mem_selectBatch ha
  obtain ⟨hdb, hrb⟩ := mem_selectBatch hb
  exact apart_of_meet hglob hmeet (hmissed a hda hra b hdb hrb hne)

/-! ## Progress -/

/-- **A batch is never empty while a task is left**: a task all of whose dependencies are done is
    ready, and an acyclic document with a task left has such a one. -/
theorem selectBatch_ne_nil (hdeclared : tasks.DependenciesDeclared) (hacyclic : tasks.Acyclic)
    (hconcurrency : 0 < concurrency)
    (hstatus : ∀ task ∈ tasks.tasks, state.tasks.status task.id = some .pending ∨
      state.tasks.status task.id = some .running ∨ state.tasks.status task.id = some .done)
    {left : Task} (hleft : left ∈ tasks.tasks) (hopen : state.tasks.status left.id ≠ some .done) :
    selectBatch selects tasks state concurrency ≠ [] := by
  refine Precedence.fill_ne_nil _ _ hconcurrency fun hnone => ?_
  have hnot : ∀ task ∈ tasks.tasks, ¬ ready state task = true :=
    fun task htask => (List.filter_eq_nil_iff.mp hnone) task htask
  have hdone : ∀ id ∈ tasks.tasks.map (·.id), state.tasks.status id = some .done := by
    refine Precedence.induction_of_acyclic hacyclic ?_
    intro id hid ih
    obtain ⟨task, htask, rfl⟩ := List.mem_map.mp hid
    rcases hstatus task htask with hpending | hrunning | hdone
    · refine absurd (ready_iff.mpr (.inr ⟨hpending, ?_⟩)) (hnot task htask)
      intro dep hdep
      exact ih dep (hdeclared task htask dep hdep) ⟨task, htask, rfl, hdep⟩
    · exact absurd (ready_iff.mpr (.inl hrunning)) (hnot task htask)
    · exact hdone
  exact hopen (hdone left.id (List.mem_map_of_mem hleft))

end

end Yunta.Loop
