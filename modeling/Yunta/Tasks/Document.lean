/-
  The tasks document: the plan a run works through, and the spec its tests come from.

  A document that enters a run was read and checked first (`TasksFile.check`): what a function
  below needs of that check it states as `DeclaredOnce`, `DependenciesDeclared` or `Acyclic`.
-/
import Yunta.Events.Payloads
import Yunta.Lib.Precedence
import Yunta.Lib.Text

set_option linter.unusedVariables false

namespace Yunta

/-- One criterion: a command, and whether it is a `guard`, which passes before and after the work,
    or an ordinary criterion, which fails before it and passes after. -/
structure Criterion where
  cmd : String
  type : Option CriterionType := none
  proves : Option String := none
  deriving DecidableEq

namespace Criterion

/-- Whether the criterion is a no-regression guard. -/
def isGuard (criterion : Criterion) : Bool := criterion.type = some .guard

/-- What the event log freezes of it. -/
def frozen (criterion : Criterion) : Events.Criterion where
  cmd := criterion.cmd
  type := criterion.type

end Criterion

/-- What a task changes, and where. -/
structure Change where
  /-- A file, or a file and what in it: `src/theme.rs::Theme`. -/
  at_ : String
  deriving DecidableEq

/-- What stands in front of the first `::`. -/
def Change.upToPath : List Char → List Char
  | ':' :: ':' :: _ => []
  | c :: rest => c :: upToPath rest
  | [] => []

/-- The file the change is in. -/
def Change.file (change : Change) : String := .ofList (upToPath change.at_.toList)

/-- One task: a unit of work its criteria verify on their own, and the paths it may change. -/
structure Task where
  id : TaskId
  scope : List ScopeGlob
  criteria : List Criterion
  dependsOn : List TaskId := []
  changes : List Change := []
  /-- The plan's shapes, by name, that the task builds on without owning them. -/
  uses : List String := []
  deriving DecidableEq

/-- A choice the plan makes that a person could make differently. -/
structure PlanDecision where
  id : String
  deriving DecidableEq

/-- A shape the plan creates or changes: every task but its owner that builds on it waits for that
    one. -/
structure Shape where
  name : String
  owner : TaskId
  /-- The file it lives in, which its owner's scope covers. -/
  file : String
  deriving DecidableEq

structure TasksFile where
  tasks : List Task
  decisions : List PlanDecision := []
  shapes : List Shape := []
  deriving DecidableEq

namespace TasksFile

/-- Each `id` is declared once in the file. -/
def DeclaredOnce (document : TasksFile) : Prop := (document.tasks.map (·.id)).Nodup

instance (document : TasksFile) : Decidable document.DeclaredOnce :=
  inferInstanceAs (Decidable (List.Nodup _))

/-- Every dependency is a task of the file. -/
def DependenciesDeclared (document : TasksFile) : Prop :=
  ∀ task ∈ document.tasks, ∀ dep ∈ task.dependsOn, dep ∈ document.tasks.map (·.id)

instance (document : TasksFile) : Decidable document.DependenciesDeclared :=
  inferInstanceAs (Decidable (∀ task ∈ document.tasks, ∀ dep ∈ task.dependsOn, _))

/-- `id` declares `dep` among its dependencies. -/
def DependsOn (document : TasksFile) (id dep : TaskId) : Prop :=
  ∃ task ∈ document.tasks, task.id = id ∧ dep ∈ task.dependsOn

/-- No task waits on itself, directly or through others. -/
def Acyclic (document : TasksFile) : Prop := Precedence.Acyclic document.DependsOn

/-- A document whose tasks only wait on tasks of lower rank is acyclic. -/
theorem acyclic_of_rank {document : TasksFile} (rank : TaskId → Nat)
    (h : ∀ task ∈ document.tasks, ∀ dep ∈ task.dependsOn, rank dep < rank task.id) :
    document.Acyclic := by
  refine Precedence.acyclic_of_rank rank ?_
  rintro id dep ⟨task, htask, rfl, hdep⟩
  exact h task htask dep hdep

/-- A task declared once is the one task under its id. -/
theorem eq_of_id {document : TasksFile} (h : document.DeclaredOnce) {a b : Task}
    (ha : a ∈ document.tasks) (hb : b ∈ document.tasks) (hid : a.id = b.id) : a = b :=
  List.inj_on_of_nodup_map h ha hb hid

end TasksFile

/-! ## The spec -/

/-- `path` as git names it inside the repository: its names alone, joined by `/`. -/
def inRepo (path : String) : String := "/".intercalate (Text.names path)

/-- One test: the command that runs it, and what its passing proves. -/
structure SpecTest where
  cmd : String
  proves : String
  deriving DecidableEq

/-- What one task is held to: the files its tests live in, and the tests. -/
structure Spec where
  task : TaskId
  files : List String := []
  tests : List SpecTest
  deriving DecidableEq

/-- The tests as the task's criteria: none of them a guard, each saying what it proves. -/
def Spec.criteria (spec : Spec) : List Criterion :=
  spec.tests.map fun test => ⟨test.cmd, none, some test.proves⟩

/-- The tests a plan's tasks are held to, one spec per task. -/
structure SpecFile where
  specs : List Spec
  deriving DecidableEq

/-- The spec of `task`, when the document has one. -/
def SpecFile.of (document : SpecFile) (task : TaskId) : Option Spec :=
  document.specs.find? (·.task = task)

end Yunta
