/-
  Where a task stands, read off what the log moves it to.

  1. **Moves** — the statuses a stretch of the log gives a task, in order.  No other event moves a
     task (`status_taken`).

  2. **Stretches** — a registered task stands, after a stretch, at the last status the stretch moves
     it to, or where it stood (`status_append`).
-/
import Yunta.Tasks.Recording

set_option linter.unusedVariables false

namespace Yunta.Loop

open RunState

/-! ## Moves -/

/-- The status a task event moves `id` to. -/
def moveOf (id : TaskId) : TaskEvent → Option TaskStatus
  | .statusChanged p => if p.taskId = id then some p.newStatus else none
  | _ => none

/-- The status an event of the log moves `id` to. -/
def move (id : TaskId) (event : StoredEvent) : Option TaskStatus :=
  match event.payload with
  | some (.tasks e) => moveOf id e
  | _ => none

/-- The statuses `events` move `id` to, in order. -/
def moves (id : TaskId) (events : List StoredEvent) : List TaskStatus := events.filterMap (move id)

theorem status_withTask {l : TaskLedger} {task id : TaskId} {f : TaskRecord → TaskRecord}
    (hf : ∀ r, (f r).status = r.status) : (l.withTask task f).1.status id = l.status id := by
  unfold TaskLedger.withTask
  cases hget : l.get task with
  | none => rfl
  | some r =>
    show ((l.perTask.insert task (f r))[id]?).map _ = _
    rw [OrdMap.getElem?_insert_eq]
    split
    · next hid =>
      rw [TaskLedger.status, ← hid, hget]
      exact congrArg some (hf r)
    · rfl

/-- **A task event moves a registered task** to the status it states for it, if it states one. -/
theorem status_apply {l : TaskLedger} {id : TaskId} {stood : TaskStatus}
    (hstood : l.status id = some stood) (e : TaskEvent) (m : EventMeta) :
    (l.apply e m).1.status id = some ((moveOf id e).getD stood) := by
  cases e with
  | registered p =>
    rw [TaskLedger.status, TaskLedger.get_registered]
    split
    · next hid =>
      obtain ⟨r, hr, hstatus⟩ := Option.map_eq_some_iff.mp hstood
      rw [hr]
      exact congrArg some hstatus
    · exact hstood
  | statusChanged p =>
    by_cases hcontains : l.contains p.taskId = true
    · rw [TaskLedger.status, TaskLedger.get_statusChanged m hcontains]
      by_cases hid : p.taskId = id
      · obtain ⟨r, hr, -⟩ := Option.map_eq_some_iff.mp hstood
        rw [if_pos hid, hr, moveOf, if_pos hid]
        rfl
      · rw [if_neg hid, moveOf, if_neg hid]
        exact hstood
    · -- a task nothing registered is refused, and is not this one
      have hget : l.get p.taskId = none := by
        by_contra hsome
        exact hcontains ((l.contains_iff _).mpr (Option.ne_none_iff_exists'.mp hsome))
      have hid : p.taskId ≠ id := by
        rintro rfl
        rw [TaskLedger.status, hget] at hstood
        cases hstood
      rw [moveOf, if_neg hid]
      simpa [TaskLedger.apply, TaskLedger.statusChanged, TaskLedger.withTask, hget] using hstood
  | deviationDeclared p =>
    exact (status_withTask (f := fun r => { r with departuresOwed := r.departuresOwed ++ [p] })
      fun _ => rfl).trans hstood
  | deviationResolved p =>
    exact (status_withTask (f := fun r => r.answered p m.seq) fun _ => rfl).trans hstood
  | _ => exact hstood

theorem status_applySession {l : TaskLedger} {id : TaskId} (e : SessionEvent) :
    (l.applySession e).status id = l.status id := by
  unfold TaskLedger.applySession
  split
  · split
    · next task htask =>
      split
      · next r hr =>
        show ((l.perTask.insert task _)[id]?).map _ = _
        rw [OrdMap.getElem?_insert_eq]
        split
        · next hid =>
          rw [TaskLedger.status, ← hid, hr]
          rfl
        · rfl
      · rfl
    · rfl
  · rfl

/-- A taken event moves a registered task where it says, and no other event moves it. -/
theorem status_taken {s : RunState} {event : StoredEvent} (h : s.refuse event = .ok ())
    {id : TaskId} {stood : TaskStatus} (hstood : s.tasks.status id = some stood) :
    (s.taken event).tasks.status id = some ((move id event).getD stood) := by
  unfold move
  cases hp : event.payload with
  | none => rw [taken_unknown hp]; exact hstood
  | some payload =>
    cases payload with
    | run e => rw [taken_run hp]; exact hstood
    | node e => rw [taken_node hp]; cases e <;> exact hstood
    | session e => rw [taken_session h hp]; exact (status_applySession e).trans hstood
    | tasks e => rw [taken_task h hp]; exact status_apply hstood e event.meta_
    | scope e => rw [taken_scope h hp]; exact hstood
    | findings e => rw [taken_finding hp]; exact hstood
    | artifacts e => rw [taken_artifact hp]; exact hstood
    | gates e => rw [taken_gate h hp]; exact hstood
    | children e => rw [taken_child hp]; exact hstood

/-! ## Stretches -/

/-- **Where a task stands after a stretch of the log**: at the last status the stretch moves it
    to. -/
theorem status_append {log events : List StoredEvent} (h : Accepted (log ++ events)) {id : TaskId}
    {stood : TaskStatus} (hstood : (derive log).tasks.status id = some stood) :
    (derive (log ++ events)).tasks.status id = some ((moves id events).getLast?.getD stood) := by
  induction events generalizing log stood with
  | nil => simpa [moves] using hstood
  | cons event events ih =>
    rw [List.append_cons] at h ⊢
    obtain ⟨hrefuse, hderive⟩ := derive_snoc (accepted_of_append h)
    have hnext := status_taken hrefuse hstood
    rw [← hderive] at hnext
    rw [ih h hnext]
    cases hmove : move id event with
    | none => simp [moves, hmove]
    | some status =>
      simp [moves, List.filterMap_cons_some hmove, List.getLast?_cons]

/-- What a cut stretch moves a task to is the start of what the whole one does. -/
theorem moves_take (id : TaskId) (events : List StoredEvent) (k : Nat) :
    moves id (events.take k) <+: moves id events :=
  (List.take_prefix k events).filterMap _

end Yunta.Loop
