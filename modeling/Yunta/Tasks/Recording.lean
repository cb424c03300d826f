/-
  Recording on a run's log: the position storage gives an event, and what the replay of a longer
  log says of the tasks.

  1. **The log** — `RunLog.record` appends one event at the next position.

  2. **Replay of a longer log** — on an accepted log a task event is folded by the task ledger alone
     (`derive_task`).

  3. **Where a task stands** — `TaskLedger.standing` is a task's status and commit, and what each
     event `register` writes does to it.
-/
import Yunta.Replay.Refusal
import Yunta.Tasks.Document

set_option linter.unusedVariables false

namespace Yunta

/-! ## The log -/

/-- One run's log as its writer sees it: the run, and the instant each position is written at. -/
structure RunLog where
  runId : RunId := ""
  clock : Nat → Int := fun _ => 0

namespace RunLog

/-- The event `payload` makes, at the position after the last one. -/
def next (log : RunLog) (events : List StoredEvent) (node : Option NodeId)
    (payload : EventPayload) : StoredEvent where
  runId := log.runId
  seq := events.length + 1
  timestamp := log.clock (events.length + 1)
  nodeId := node
  body := .known payload

def record (log : RunLog) (events : List StoredEvent) (node : Option NodeId)
    (payload : EventPayload) : List StoredEvent :=
  events ++ [log.next events node payload]

@[simp] theorem payload_next (log : RunLog) (events : List StoredEvent) (node : Option NodeId)
    (payload : EventPayload) : (log.next events node payload).payload = some payload := rfl

end RunLog

/-! ## Replay of a longer log -/

open RunState

/-- **A task event recorded on an accepted log** is folded by the task ledger alone, where it acts
    on a task the log registered. -/
theorem derive_task {log : List StoredEvent} (h : Accepted log) (event : StoredEvent)
    {e : TaskEvent} (hp : event.payload = some (.tasks e))
    (hreg : ∀ task, taskNamed e = some task → (derive log).tasks.contains task = true) :
    Accepted (log ++ [event]) ∧ derive (log ++ [event]) =
      { (derive log).counted event with
        tasks := ((derive log).tasks.apply e event.meta_).1 } := by
  have hrefuse : (derive log).refuse event = .ok () := by
    simp only [refuse, hp, refuseTask]
    cases hn : taskNamed e with
    | none => rfl
    | some task => simp [hreg task hn]
  have hderive : derive (log ++ [event]) = (derive log).taken event := by
    rw [derive_append h, deriveFrom, apply_eq, hrefuse]
    rfl
  refine ⟨?_, ?_⟩
  · rw [Accepted, hderive, (taken_frame hrefuse).2.2]
    exact h
  · rw [hderive, taken_task hrefuse hp]

/-! ## Where a task stands -/

/-- A task's status, and the commit its work landed at. -/
def TaskLedger.standing (l : TaskLedger) (task : TaskId) : Option (TaskStatus × Option CommitSha) :=
  (l.get task).map fun r => (r.status, r.commit)

theorem TaskLedger.status_standing (l : TaskLedger) (task : TaskId) :
    l.status task = (l.standing task).map (·.1) := by
  simp [status, standing, Function.comp_def]

theorem TaskLedger.contains_standing (l : TaskLedger) (task : TaskId) :
    l.contains task = (l.standing task).isSome := by
  rw [Bool.eq_iff_iff, contains_iff]
  simp [standing, Option.isSome_iff_exists]

/-- A registration leaves a task the log knows as it stands, and one it does not pending. -/
theorem standing_registered (l : TaskLedger) (p : TaskRegisteredPayload) (m : EventMeta)
    (task : TaskId) :
    (l.apply (.registered p) m).1.standing task =
      if p.taskId = task then some ((l.standing task).getD (.pending, none))
      else l.standing task := by
  simp only [TaskLedger.standing, TaskLedger.get_registered]
  split
  · cases l.get task <;> rfl
  · rfl

theorem standing_statusChanged {l : TaskLedger} {p : TaskStatusChangedPayload} (m : EventMeta)
    (h : l.contains p.taskId = true) (task : TaskId) :
    (l.apply (.statusChanged p) m).1.standing task =
      if p.taskId = task then (l.standing task).map fun s => (p.newStatus, p.commit <|> s.2)
      else l.standing task := by
  simp only [TaskLedger.standing, TaskLedger.get_statusChanged m h]
  split
  · cases l.get task <;> rfl
  · rfl

end Yunta
