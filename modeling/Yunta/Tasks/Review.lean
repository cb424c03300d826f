/-
  A plan as a person reviews it, beside the plan as the run judges it.

  1. **The review** — `taskReview` shows a task's criteria and guards, each with what holds the task
     to it, and `review` every task of the plan.  It waives by one list of departures, the accepted
     ones of every task (`departed`); `judgedPlan` waives from each task its own.

  2. **Agreement** — `review_judges` says for which plans, specs, held commands and departures the
     review shows exactly the commands the run judges by: those where no task's accepted departure
     names a command that the plan alone holds another task to.
-/
import Yunta.Tasks.Judged

set_option linter.unusedVariables false

namespace Yunta

open Text (trim trim_trim)

/-! ## The review -/

/-- What holds a task to a criterion. -/
inductive HeldTo where
  | plan
  | spec
  | anotherTask (task : TaskId)
  deriving DecidableEq

/-- One criterion a task is judged by, and what holds the task to it. -/
structure JudgedCriterion where
  cmd : String
  proves : Option String
  from_ : HeldTo
  deriving DecidableEq

/-- A change the plan names on a test the spec wrote. -/
structure DeniedChange where
  at_ : String
  owner : TaskId
  deriving DecidableEq

/-- What holds one task, and what of its plan cannot be done. -/
structure TaskReview where
  task : TaskId
  criteria : List JudgedCriterion
  denied : List DeniedChange
  guards : List JudgedCriterion
  deriving DecidableEq

/-- A plan as the run will judge it. -/
structure PlanReview where
  plan : TasksFile
  departed : List AcceptedDeparture
  spec : Option SpecFile
  held : List String
  tasks : List TaskReview
  deriving DecidableEq

/-- Whether one of the spec's tests runs `cmd`. -/
def Spec.runs (spec : Spec) (cmd : String) : Bool :=
  spec.tests.any fun test => trim test.cmd = cmd

/-- What holds `task` to the criterion that runs `cmd`: a test of its own spec, the test the spec
    gives another task, or its plan alone. -/
def heldTo (task : Task) (cmd : String) (spec : Option SpecFile) : HeldTo :=
  match spec with
  | none => .plan
  | some spec =>
    if (spec.of task.id).any (·.runs (trim cmd)) then .spec
    else
      match spec.specs.find? (·.runs (trim cmd)) with
      | some other => .anotherTask other.task
      | none => .plan

/-- Each change of `task` the plan names on a file the spec wrote. -/
def denied (task : Task) (spec : Option SpecFile) : List DeniedChange :=
  match spec with
  | none => []
  | some spec =>
    task.changes.filterMap fun change =>
      (spec.specs.find? fun of => of.files.any fun file => inRepo file = inRepo change.file).map
        fun of => ⟨change.at_, of.task⟩

/-- The criteria a task is shown, the held commands aside. -/
def shownCriteria (task : Task) (spec : Option SpecFile) (held : List String)
    (departed : List AcceptedDeparture) : List Criterion :=
  (waived (specified task spec) departed held spec).criteria.filter fun criterion =>
    !held.any fun command => trim command = trim criterion.cmd

def taskReview (task : Task) (spec : Option SpecFile) (held : List String)
    (departed : List AcceptedDeparture) : TaskReview :=
  let reviewed (criterion : Criterion) : JudgedCriterion :=
    ⟨criterion.cmd, criterion.proves, heldTo task criterion.cmd spec⟩
  let shown := shownCriteria task spec held departed
  let (guards, criteria) := shown.partition (·.isGuard)
  { task := task.id
    criteria := criteria.map reviewed
    denied := denied task spec
    guards := guards.map reviewed }

def review (plan : TasksFile) (spec : Option SpecFile) (held : List String)
    (departed : List AcceptedDeparture) : PlanReview where
  plan := plan
  departed := departed
  spec := spec
  held := held
  tasks := plan.tasks.map fun task => taskReview task spec held departed

/-- Every departure from `plan` a person accepted, task by task in the plan's order. -/
def departed (plan : TasksFile) (ledger : TaskLedger) : List AcceptedDeparture :=
  plan.tasks.flatMap fun task => ledger.departuresAccepted task.id

/-- The commands a review shows for one of its tasks, as they run: its criteria, its guards and the
    held commands. -/
def PlanReview.commandsOf (shown : PlanReview) (task : TaskReview) : List String :=
  (task.criteria.map fun c => trim c.cmd) ++ (task.guards.map fun c => trim c.cmd) ++
    shown.held.map trim

/-! ## Agreement -/

variable {plan : TasksFile} {spec : Option SpecFile} {held : List String} {ledger : TaskLedger}

/-- A criterion leaves `before` by a departure its own task was accepted. -/
def WaivesOwn (ledger : TaskLedger) (task : Task) (before after : List Criterion) : Prop :=
  ∀ cmd ∈ commands before, cmd ∉ commands after →
    Departed (ledger.departuresAccepted task.id) cmd

/-- What the plan alone holds `task` to, and another task departed from, it departed from itself. -/
def OwnDepartures (plan : TasksFile) (spec : Option SpecFile) (held : List String)
    (ledger : TaskLedger) (task : Task) : Prop :=
  ∀ cmd ∈ commands task.criteria, heldBy task.id cmd held spec = .plan →
    ∀ other ∈ plan.tasks, Departed (ledger.departuresAccepted other.id) cmd →
      Departed (ledger.departuresAccepted task.id) cmd

theorem departed_iff {cmd : String} :
    Departed (departed plan ledger) cmd ↔
      ∃ other ∈ plan.tasks, Departed (ledger.departuresAccepted other.id) cmd := by
  simp only [Departed, departed, List.mem_flatMap]
  constructor
  · rintro ⟨departure, ⟨other, hother, hmem⟩, hd⟩
    exact ⟨other, hother, departure, hmem, hd⟩
  · rintro ⟨other, hother, departure, hmem, hd⟩
    exact ⟨departure, ⟨other, hother, hmem⟩, hd⟩

/-- What a task is judged by: the held commands, its spec's tests, and what its plan declares and it
    has not departed from. -/
theorem commands_judged (task : Task) (cmd : String) :
    cmd ∈ commands (judged task held spec ledger).criteria ↔
      cmd ∈ held.map trim ∨ cmd ∈ testCommands task.id spec ∨
        cmd ∈ commands task.criteria ∧ ¬ Departed (ledger.departuresAccepted task.id) cmd := by
  obtain ⟨hid, hheld⟩ := commands_judgedTask task held
  obtain ⟨hid', hspec⟩ := commands_specified (judgedTask task held) spec
  rw [judged, commands_waived, hspec, hheld, hid', hid]
  tauto

/-- What a task is shown: the same, less whatever any task of the plan departed from. -/
theorem commands_shown (task : Task) (cmd : String) :
    (cmd ∈ commands (shownCriteria task spec held (departed plan ledger)) ∨ cmd ∈ held.map trim) ↔
      cmd ∈ held.map trim ∨ cmd ∈ testCommands task.id spec ∨
        cmd ∈ commands task.criteria ∧ ¬ Departed (departed plan ledger) cmd := by
  obtain ⟨hid, hspec⟩ := commands_specified task spec
  have hshown : cmd ∈ commands (shownCriteria task spec held (departed plan ledger)) ↔
      cmd ∈ commands (waived (specified task spec) (departed plan ledger) held spec).criteria ∧
        cmd ∉ held.map trim := by
    simp only [shownCriteria, mem_commands, List.mem_filter]
    constructor
    · rintro ⟨c, ⟨hmem, hnot⟩, rfl⟩
      exact ⟨⟨c, hmem, rfl⟩, by simpa using hnot⟩
    · rintro ⟨⟨c, hmem, rfl⟩, hnot⟩
      exact ⟨c, ⟨hmem, by simpa using hnot⟩, rfl⟩
  rw [hshown, commands_waived, hspec, hid]
  tauto

/-- A review splits what it shows of a task into criteria and guards, and adds the held commands. -/
theorem commandsOf_taskReview (task : Task) (accepted : List AcceptedDeparture) (cmd : String) :
    cmd ∈ (review plan spec held accepted).commandsOf (taskReview task spec held accepted) ↔
      cmd ∈ commands (shownCriteria task spec held accepted) ∨ cmd ∈ held.map trim := by
  simp only [PlanReview.commandsOf, taskReview, review, List.partition_eq_filter_filter,
    List.map_map, List.mem_append, Function.comp_def]
  refine or_congr ?_ Iff.rfl
  rw [← List.mem_append, ← List.map_append, commands, List.mem_map, List.mem_map]
  have hmem : ∀ c, c ∈ (shownCriteria task spec held accepted).filter (fun c => !c.isGuard) ++
      (shownCriteria task spec held accepted).filter (·.isGuard) ↔
        c ∈ shownCriteria task spec held accepted := by
    intro c
    rw [List.mem_append, List.mem_filter, List.mem_filter]
    cases c.isGuard <;> simp
  simp only [hmem]

/-- What a task declares and the plan alone holds it to. -/
theorem heldBy_of_mem {task : Task} {cmd : String} (h : cmd ∈ commands task.criteria) :
    heldBy task.id cmd held spec = .plan ↔
      cmd ∉ held.map trim ∧ cmd ∉ testCommands task.id spec := by
  obtain ⟨c, -, rfl⟩ := mem_commands.mp h
  rw [heldBy_plan_iff, trim_trim]

/-- One task: the review shows what the run judges it by exactly when it departed itself from
    whatever another task departed from. -/
theorem shown_iff_judged {task : Task} (htask : task ∈ plan.tasks) :
    (∀ cmd, cmd ∈ commands (shownCriteria task spec held (departed plan ledger)) ∨
        cmd ∈ held.map trim ↔ cmd ∈ commands (judged task held spec ledger).criteria) ↔
      OwnDepartures plan spec held ledger task := by
  have hown : ∀ cmd, Departed (ledger.departuresAccepted task.id) cmd →
      Departed (departed plan ledger) cmd :=
    fun cmd h => departed_iff.mpr ⟨task, htask, h⟩
  constructor
  · intro hagree cmd hcmd hplan other hother hdeparted
    by_contra hnot
    have hjudged : cmd ∈ commands (judged task held spec ledger).criteria :=
      (commands_judged task cmd).mpr (Or.inr (Or.inr ⟨hcmd, hnot⟩))
    obtain ⟨hheld, htest⟩ := (heldBy_of_mem hcmd).mp hplan
    rcases (commands_shown task cmd).mp ((hagree cmd).mpr hjudged) with h | h | ⟨-, h⟩
    · exact hheld h
    · exact htest h
    · exact h (departed_iff.mpr ⟨other, hother, hdeparted⟩)
  · intro hown' cmd
    rw [commands_shown, commands_judged]
    constructor
    · rintro (h | h | ⟨hcmd, hnot⟩)
      · exact Or.inl h
      · exact Or.inr (Or.inl h)
      · exact Or.inr (Or.inr ⟨hcmd, fun h => hnot (hown cmd h)⟩)
    · rintro (h | h | ⟨hcmd, hnot⟩)
      · exact Or.inl h
      · exact Or.inr (Or.inl h)
      · by_cases hplan : heldBy task.id cmd held spec = .plan
        · refine Or.inr (Or.inr ⟨hcmd, ?_⟩)
          intro hdeparted
          obtain ⟨other, hother, hd⟩ := departed_iff.mp hdeparted
          exact hnot (hown' cmd hcmd hplan other hother hd)
        · rw [heldBy_of_mem hcmd] at hplan
          tauto

/-- A task departed itself from what the review does not show it. -/
theorem waivesOwn_review {task : Task} (h : OwnDepartures plan spec held ledger task) :
    WaivesOwn ledger task (specified task spec).criteria
      (waived (specified task spec) (departed plan ledger) held spec).criteria := by
  intro cmd hbefore hafter
  obtain ⟨hid, hspec⟩ := commands_specified task spec
  rw [commands_waived, hid] at hafter
  obtain ⟨hdeparted, hheld, htest⟩ := not_not.mp fun hc => hafter ⟨hbefore, hc⟩
  have hcmd := ((hspec cmd).mp hbefore).resolve_right htest
  obtain ⟨other, hother, hd⟩ := departed_iff.mp hdeparted
  exact h cmd hcmd ((heldBy_of_mem hcmd).mpr ⟨hheld, htest⟩) other hother hd

/-- A task departed itself from what the run does not judge it by. -/
theorem waivesOwn_judged (task : Task) :
    WaivesOwn ledger task (specified (judgedTask task held) spec).criteria
      (judged task held spec ledger).criteria := by
  intro cmd hbefore hafter
  rw [judged, commands_waived] at hafter
  exact (not_not.mp fun hc => hafter ⟨hbefore, hc⟩).1

/-- **The plan a person reviews is the plan the run judges**, task by task, and no task loses a
    criterion by another's departure, exactly where every task departed itself from what the plan
    alone holds it to and another task departed from. -/
theorem review_judges (plan : TasksFile) (spec : Option SpecFile) (held : List String)
    (ledger : TaskLedger) :
    (List.Forall₂ (fun reviewed task => ∀ cmd,
          cmd ∈ (review plan spec held (departed plan ledger)).commandsOf reviewed ↔
            cmd ∈ commands task.criteria)
        (review plan spec held (departed plan ledger)).tasks
        (judgedPlan plan held spec ledger).tasks ∧
      ∀ task ∈ plan.tasks,
        WaivesOwn ledger task (specified task spec).criteria
          (waived (specified task spec) (departed plan ledger) held spec).criteria ∧
        WaivesOwn ledger task (specified (judgedTask task held) spec).criteria
          (judged task held spec ledger).criteria) ↔
      ∀ task ∈ plan.tasks, OwnDepartures plan spec held ledger task := by
  have hagree : List.Forall₂ (fun reviewed task => ∀ cmd,
        cmd ∈ (review plan spec held (departed plan ledger)).commandsOf reviewed ↔
          cmd ∈ commands task.criteria)
      (review plan spec held (departed plan ledger)).tasks
      (judgedPlan plan held spec ledger).tasks ↔
      ∀ task ∈ plan.tasks, OwnDepartures plan spec held ledger task := by
    rw [show (review plan spec held (departed plan ledger)).tasks =
      plan.tasks.map fun task => taskReview task spec held (departed plan ledger) from rfl,
      judgedPlan, List.forall₂_map_left_iff, List.forall₂_map_right_iff, List.forall₂_same]
    refine forall₂_congr fun task htask => ?_
    simp only [commandsOf_taskReview]
    exact shown_iff_judged htask
  rw [hagree]
  refine and_iff_left_of_imp ?_
  intro hown task htask
  exact ⟨waivesOwn_review (hown task htask), waivesOwn_judged task⟩

/-! ## Two tasks, one command -/

/-- Two tasks whose plan holds both to one command. -/
def twins : TasksFile :=
  { tasks :=
      [{ id := "a", scope := [], criteria := [⟨"make test", none, none⟩] },
        { id := "b", scope := [], criteria := [⟨"make test", none, none⟩] }] }

/-- The first departed from it, and a person accepted that. -/
def twinsDeparted : TaskLedger where
  perTask := (({} : OrdMap TaskId TaskRecord).insert "b" {}).insert "a"
    { departuresAccepted := [⟨⟨"a", .criterion "make test", "", "", ""⟩, none⟩] }

/-- **A departure of one task hides the other's criterion** from the review, and not from the
    run. -/
theorem not_review_judges :
    (judgedPlan twins [] none twinsDeparted).tasks.map (commands ·.criteria) =
        [[], ["make test"]] ∧
      (review twins none [] (departed twins twinsDeparted)).tasks.map
        (review twins none [] (departed twins twinsDeparted)).commandsOf = [[], []] := by
  decide +kernel

end Yunta
