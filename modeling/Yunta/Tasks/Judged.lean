/-
  The criteria a task is judged by: the ones its document declares, the commands the run measured
  green before anything changed, the tests its spec gives it, less the ones of its plan a person
  accepted departing from.

  * `judgedTask`, `specified` and `waived` each add to or take from a task's criteria, and
    `judgedPlan` applies the three in that order, every task with its own departures.
  * Each has a spec lemma that says which commands, trimmed, are left: `commands_judgedTask`,
    `commands_specified`, `commands_waived`.
-/
import Yunta.Ledgers.Tasks
import Yunta.Tasks.Document

set_option linter.unusedVariables false

namespace Yunta

open Text (trim trim_trim)

/-- What a command measured green shows when a task is held to it. -/
def HELD_PROVES : String :=
  "what passed before this run changed anything still passes after this task's change"

namespace Task

/-- Whether one of the task's criteria runs `cmd`. -/
def runs (task : Task) (cmd : String) : Bool :=
  task.criteria.any fun criterion => trim criterion.cmd = cmd

def push (task : Task) (criterion : Criterion) : Task :=
  { task with criteria := task.criteria ++ [criterion] }

end Task

/-- `task` as the run judges it: its own criteria and, as guards, the commands that hold the run's
    tasks. -/
def judgedTask (task : Task) (held : List String) : Task :=
  (held.map trim).foldl (fun judged command =>
    if judged.runs command then judged
    else judged.push ⟨command, some .guard, some HELD_PROVES⟩) task

/-- `task` held to its spec as well: each test the run's spec gives it, among its criteria. -/
def specified (task : Task) (spec : Option SpecFile) : Task :=
  match spec.bind (·.of task.id) with
  | none => task
  | some spec =>
    spec.criteria.foldl (fun task test =>
      if task.runs (trim test.cmd) then task else task.push test) task

/-- What holds a task to one of its criteria. -/
inductive HeldBy where
  | plan | spec | baseline
  deriving DecidableEq

/-- What holds `task` to the criterion that runs `cmd`: the commands the run measured first, then
    its spec, then the plan. -/
def heldBy (task : TaskId) (cmd : String) (held : List String) (spec : Option SpecFile) : HeldBy :=
  if held.any fun command => trim command = trim cmd then .baseline
  else if (spec.bind (·.of task)).any fun spec => spec.tests.any fun test =>
      trim test.cmd = trim cmd then .spec
  else .plan

/-- The command a departure departs from, when it is a criterion's. -/
def AcceptedDeparture.criterion (accepted : AcceptedDeparture) : Option String :=
  match accepted.declared.departs with
  | .criterion cmd => some (trim cmd)
  | _ => none

/-- `task` without the criteria of its plan a person accepted departing from. -/
def waived (task : Task) (accepted : List AcceptedDeparture) (held : List String)
    (spec : Option SpecFile) : Task :=
  let departed := (accepted.filterMap (·.criterion)).filter fun cmd =>
    heldBy task.id cmd held spec = .plan
  { task with criteria := task.criteria.filter fun criterion =>
      !departed.contains (trim criterion.cmd) }

/-- Every departure a person accepted from one task. -/
def TaskLedger.departuresAccepted (ledger : TaskLedger) (task : TaskId) : List AcceptedDeparture :=
  match ledger.get task with
  | some record => record.departuresAccepted
  | none => []

/-- One task of the plan as the run judges it now. -/
def judged (task : Task) (held : List String) (spec : Option SpecFile) (ledger : TaskLedger) :
    Task :=
  waived (specified (judgedTask task held) spec) (ledger.departuresAccepted task.id) held spec

/-- Every task of `plan` as the run judges it now. -/
def judgedPlan (plan : TasksFile) (held : List String) (spec : Option SpecFile)
    (ledger : TaskLedger) : TasksFile :=
  { plan with tasks := plan.tasks.map fun task => judged task held spec ledger }

/-! ## What judging leaves -/

/-- Judging a task changes its criteria alone. -/
theorem judged_eq (task : Task) (held : List String) (spec : Option SpecFile)
    (ledger : TaskLedger) :
    ∃ criteria, judged task held spec ledger = { task with criteria } := by
  have hjoin : ∀ (criteria : List Criterion) (task : Task), ∃ joined,
      criteria.foldl (fun task criterion =>
        if task.runs (trim criterion.cmd) then task else task.push criterion) task =
          { task with criteria := joined } := by
    intro criteria
    induction criteria with
    | nil => exact fun task => ⟨task.criteria, rfl⟩
    | cons criterion criteria ih =>
      intro task
      rw [List.foldl_cons]
      split
      · exact ih task
      · exact ih (task.push criterion)
  have hheld : ∀ (held : List String) (task : Task), ∃ joined,
      held.foldl (fun judged command =>
        if judged.runs command then judged
        else judged.push ⟨command, some .guard, some HELD_PROVES⟩) task =
          { task with criteria := joined } := by
    intro held
    induction held with
    | nil => exact fun task => ⟨task.criteria, rfl⟩
    | cons command held ih =>
      intro task
      rw [List.foldl_cons]
      split
      · exact ih task
      · exact ih (task.push _)
  obtain ⟨criteria, hcriteria⟩ := hheld (held.map trim) task
  unfold judged specified judgedTask
  rw [hcriteria]
  split
  · exact ⟨_, rfl⟩
  · next spec hspec =>
    obtain ⟨criteria', hcriteria'⟩ := hjoin spec.criteria { task with criteria }
    rw [hcriteria']
    exact ⟨_, rfl⟩

/-! ## The commands each step leaves -/

/-- The commands of some criteria, as they run. -/
def commands (criteria : List Criterion) : List String := criteria.map fun c => trim c.cmd

/-- The commands the spec gives a task's tests. -/
def testCommands (task : TaskId) (spec : Option SpecFile) : List String :=
  ((spec.bind (·.of task)).map (·.tests) |>.getD []).map fun test => trim test.cmd

theorem mem_commands {criteria : List Criterion} {cmd : String} :
    cmd ∈ commands criteria ↔ ∃ c ∈ criteria, trim c.cmd = cmd := List.mem_map

theorem Task.runs_iff {task : Task} {cmd : String} :
    task.runs cmd = true ↔ cmd ∈ commands task.criteria := by
  simp [Task.runs, mem_commands]

/-- A task gains a criterion only where none of its own runs the command. -/
theorem commands_push_unless (task : Task) (criterion : Criterion) (cmd : String) :
    cmd ∈ commands (if task.runs (trim criterion.cmd) then task else task.push criterion).criteria ↔
      cmd ∈ commands task.criteria ∨ cmd = trim criterion.cmd := by
  split
  · next h =>
    rw [Task.runs_iff] at h
    refine ⟨Or.inl, fun hc => hc.elim id ?_⟩
    rintro rfl
    exact h
  · simp [Task.push, commands]

/-- What criteria joined one after the other leave, and the task they leave it to. -/
theorem commands_foldl (criteria : List Criterion) (task : Task) :
    let joined := criteria.foldl (fun task criterion =>
      if task.runs (trim criterion.cmd) then task else task.push criterion) task
    joined.id = task.id ∧
      ∀ cmd, cmd ∈ commands joined.criteria ↔
        cmd ∈ commands task.criteria ∨ cmd ∈ commands criteria := by
  induction criteria generalizing task with
  | nil => simp [commands]
  | cons criterion criteria ih =>
    obtain ⟨hid, hcommands⟩ := ih
      (if task.runs (trim criterion.cmd) then task else task.push criterion)
    refine ⟨hid.trans ?_, fun cmd => (hcommands cmd).trans ?_⟩
    · split <;> rfl
    · rw [commands_push_unless]
      simp only [commands, List.map_cons, List.mem_cons]
      exact or_assoc

theorem judgedTask_eq (task : Task) (held : List String) :
    judgedTask task held = (held.map fun command =>
      (⟨trim command, some .guard, some HELD_PROVES⟩ : Criterion)).foldl (fun task criterion =>
        if task.runs (trim criterion.cmd) then task else task.push criterion) task := by
  rw [judgedTask, List.foldl_map, List.foldl_map]
  simp only [trim_trim]

/-- **Held commands** join a task's criteria, and take none away. -/
theorem commands_judgedTask (task : Task) (held : List String) :
    (judgedTask task held).id = task.id ∧
      ∀ cmd, cmd ∈ commands (judgedTask task held).criteria ↔
        cmd ∈ commands task.criteria ∨ cmd ∈ held.map trim := by
  rw [judgedTask_eq]
  obtain ⟨hid, hcommands⟩ := commands_foldl (held.map fun command =>
    (⟨trim command, some .guard, some HELD_PROVES⟩ : Criterion)) task
  refine ⟨hid, fun cmd => (hcommands cmd).trans ?_⟩
  simp [commands]

/-- **A spec's tests** join the criteria of its task, and take none away. -/
theorem commands_specified (task : Task) (spec : Option SpecFile) :
    (specified task spec).id = task.id ∧
      ∀ cmd, cmd ∈ commands (specified task spec).criteria ↔
        cmd ∈ commands task.criteria ∨ cmd ∈ testCommands task.id spec := by
  unfold specified testCommands
  cases hspec : spec.bind (·.of task.id) with
  | none => simp
  | some spec =>
    obtain ⟨hid, hcommands⟩ := commands_foldl spec.criteria task
    refine ⟨hid, fun cmd => (hcommands cmd).trans ?_⟩
    simp [commands, Spec.criteria]

/-- What nothing but the plan holds a task to is neither a held command nor a test of its spec. -/
theorem heldBy_plan_iff {task : TaskId} {cmd : String} {held : List String}
    {spec : Option SpecFile} : heldBy task cmd held spec = .plan ↔
      trim cmd ∉ held.map trim ∧ trim cmd ∉ testCommands task spec := by
  have hheld : (held.any fun command => trim command = trim cmd) = true ↔
      trim cmd ∈ held.map trim := by
    simp
  have hspec : ((spec.bind (·.of task)).any fun spec => spec.tests.any fun test =>
      trim test.cmd = trim cmd) = true ↔ trim cmd ∈ testCommands task spec := by
    unfold testCommands
    cases spec.bind (·.of task) <;> simp
  unfold heldBy
  split
  · next h => simp [hheld.mp h]
  · next h =>
    split
    · next h' => simp [hspec.mp h']
    · next h' =>
      refine iff_of_true rfl ⟨fun hc => h (hheld.mpr hc), fun hc => h' (hspec.mpr hc)⟩

/-- Whether one of some accepted departures is from the criterion that runs `cmd`. -/
def Departed (accepted : List AcceptedDeparture) (cmd : String) : Prop :=
  ∃ departure ∈ accepted, departure.criterion = some cmd

/-- A departure names a command as it runs. -/
theorem AcceptedDeparture.trim_criterion {accepted : AcceptedDeparture} {cmd : String}
    (h : accepted.criterion = some cmd) : trim cmd = cmd := by
  unfold AcceptedDeparture.criterion at h
  split at h
  · cases h
    exact trim_trim _
  · cases h

/-- **Accepted departures** take away the criteria of the plan they name, and nothing else. -/
theorem commands_waived (task : Task) (accepted : List AcceptedDeparture) (held : List String)
    (spec : Option SpecFile) (cmd : String) :
    cmd ∈ commands (waived task accepted held spec).criteria ↔
      cmd ∈ commands task.criteria ∧
        ¬ (Departed accepted cmd ∧ cmd ∉ held.map trim ∧ cmd ∉ testCommands task.id spec) := by
  have hdeparted : ((accepted.filterMap (·.criterion)).filter fun cmd =>
      heldBy task.id cmd held spec = .plan).contains cmd = true ↔
      Departed accepted cmd ∧ cmd ∉ held.map trim ∧ cmd ∉ testCommands task.id spec := by
    rw [List.contains_iff_mem, List.mem_filter, List.mem_filterMap, decide_eq_true_eq,
      heldBy_plan_iff]
    constructor
    · rintro ⟨⟨departure, hmem, hd⟩, hplan⟩
      rw [AcceptedDeparture.trim_criterion hd] at hplan
      exact ⟨⟨departure, hmem, hd⟩, hplan⟩
    · rintro ⟨⟨departure, hmem, hd⟩, hplan⟩
      rw [AcceptedDeparture.trim_criterion hd]
      exact ⟨⟨departure, hmem, hd⟩, hplan⟩
  rw [← hdeparted, waived, mem_commands, mem_commands]
  constructor
  · rintro ⟨c, hc, rfl⟩
    obtain ⟨hmem, hkept⟩ := List.mem_filter.mp hc
    have hnot := (Bool.not_eq_true' _).mp hkept
    exact ⟨⟨c, hmem, rfl⟩, Bool.eq_false_iff.mp hnot⟩
  · rintro ⟨⟨c, hmem, rfl⟩, hkept⟩
    have hnot := (Bool.not_eq_true' _).mpr (Bool.eq_false_iff.mpr hkept)
    exact ⟨c, List.mem_filter.mpr ⟨hmem, hnot⟩, rfl⟩

end Yunta
