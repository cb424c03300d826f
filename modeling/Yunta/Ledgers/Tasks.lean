/-
  The tasks document as a run works it, folded once: each task's status, its attempts, the commit
  a `done` landed at, and what the criteria they are checked against cost.

  `TaskLedger.apply` refuses a status change and a departure for a task nothing registered.  The
  refusal is answered beside the ledger, which a refused event leaves as it found it.
-/
import Yunta.Ledgers.Run

set_option linter.unusedVariables false

namespace Yunta

/-- A departure from the plan a person accepted, and what they said when they did. -/
structure AcceptedDeparture where
  declared : DeviationDeclaredPayload
  said : Option String
  deriving DecidableEq

/-- A person's acceptance that a task's tests are wrong. -/
structure Respecified where
  by_ : NodeId
  at_ : Nat
  departures : List DeviationDeclaredPayload
  said : Option String
  deriving DecidableEq

/-- What the log says about one task. -/
structure TaskRecord where
  status : TaskStatus := .pending
  /-- The first node the log names for it keeps it. -/
  owner : Option NodeId := none
  registeredAt : Option Nat := none
  /-- How many times the task was dispatched: one per move into `running`. -/
  attempts : Nat := 0
  commit : Option CommitSha := none
  leftWork : Option (NodeId × CommitSha) := none
  resumes : Option SessionId := none
  stop : Option TaskCause := none
  lastSession : Option SessionId := none
  deviationAnswer : Option DeviationResolvedPayload := none
  departuresOwed : List DeviationDeclaredPayload := []
  departuresAccepted : List AcceptedDeparture := []
  respecified : Option Respecified := none
  inSession : Bool := false
  deriving DecidableEq

namespace TaskRecord

instance : Inhabited TaskRecord := ⟨{}⟩

/-- A `task_registered`. -/
def registered (r : TaskRecord) (m : EventMeta) : TaskRecord :=
  { r with
    owner := r.owner <|> m.node
    registeredAt := r.registeredAt <|> some m.seq }

/-- A `task_status_changed`: every field a change names none of is cleared. -/
def statusChanged (r : TaskRecord) (p : TaskStatusChangedPayload) (m : EventMeta) : TaskRecord :=
  { r with
    owner := r.owner <|> m.node
    attempts := if p.newStatus = .running then r.attempts + 1 else r.attempts
    deviationAnswer := if p.newStatus = .running then none else r.deviationAnswer
    status := p.newStatus
    commit := p.commit <|> r.commit
    leftWork := p.leftWork.bind fun work => m.node.map fun node => (node, work)
    resumes := p.resumes
    stop := p.stop
    inSession := false }

/-- One answer settles every departure the task owed when it was asked. -/
def answered (r : TaskRecord) (answer : DeviationResolvedPayload) (at_ : Nat) : TaskRecord :=
  { r with
    departuresOwed := []
    respecified :=
      match answer.accepted, answer.respecifiedBy with
      | true, some by_ => some ⟨by_, at_, r.departuresOwed, answer.said⟩
      | _, _ => r.respecified
    departuresAccepted :=
      if answer.accepted then
        r.departuresAccepted ++ r.departuresOwed.map fun declared => ⟨declared, answer.said⟩
      else r.departuresAccepted
    deviationAnswer := some answer }

end TaskRecord

/-- Every task's record, by id, and what the criteria they were checked against cost. -/
structure TaskLedger where
  perTask : OrdMap TaskId TaskRecord := ∅
  /-- What each criterion command cost, keyed by the command itself. -/
  perCriterion : OrdMap String (List Nat) := ∅
  /-- The tasks a check is judging: each started, and none answered. -/
  checking : OrdSet TaskId := ∅
  /-- The events a status change named as the cause of its move. -/
  caused : OrdSet Nat := ∅
  shapes : OrdMap ContentHash ShapesReadPayload := ∅
  deriving DecidableEq

/-- A task-domain event naming a task no `task_registered` introduced. -/
structure UnknownTask where
  task : TaskId
  deriving DecidableEq

namespace TaskLedger

def get (l : TaskLedger) (task : TaskId) : Option TaskRecord := l.perTask[task]?

/-- Where the log left `task`. -/
def status (l : TaskLedger) (task : TaskId) : Option TaskStatus := (l.get task).map (·.status)

/-- Whether the log registered `task`. -/
def contains (l : TaskLedger) (task : TaskId) : Bool := l.perTask.contains task

/-- Whether a status change named the event at `decision` as the cause of its move. -/
def causedBy (l : TaskLedger) (decision : Nat) : Bool := l.caused.contains decision

/-- Whether a task `node`'s loop blocked left work behind. -/
def continuableBy (l : TaskLedger) (node : NodeId) : Bool :=
  l.perTask.toList.any fun kv =>
    kv.2.status = .blocked && kv.2.leftWork.any fun work => work.1 = node

/-- Every task whose latest status is `blocked` and names a stop, in task order. -/
def stops (l : TaskLedger) : List TaskStop :=
  l.perTask.toList.filterMap fun kv =>
    if kv.2.status = .blocked then kv.2.stop.map fun cause => ⟨kv.1, cause⟩ else none

/-- Rewrites the record of a registered task by `f`, and refuses one nothing registered. -/
def withTask (l : TaskLedger) (task : TaskId) (f : TaskRecord → TaskRecord) :
    TaskLedger × Except UnknownTask Unit :=
  match l.get task with
  | none => (l, .error ⟨task⟩)
  | some r => ({ l with perTask := l.perTask.insert task (f r) }, .ok ())

/-- A status change: the task moves, and the event it names as its cause is remembered. -/
def statusChanged (l : TaskLedger) (p : TaskStatusChangedPayload) (m : EventMeta) :
    TaskLedger × Except UnknownTask Unit :=
  match l.withTask p.taskId fun r => r.statusChanged p m with
  | (l, .ok ()) => ({ l with caused := l.caused.insert p.causedBy }, .ok ())
  | (l, .error e) => (l, .error e)

/-- Folds one task-domain event. -/
def apply (l : TaskLedger) (event : TaskEvent) (m : EventMeta) :
    TaskLedger × Except UnknownTask Unit :=
  match event with
  | .registered p =>
    ({ l with perTask := OrdMap.upsert l.perTask p.taskId {} fun r => r.registered m }, .ok ())
  | .statusChanged p => l.statusChanged p m
  | .checkStarted p => ({ l with checking := l.checking.insert p.taskId }, .ok ())
  | .checkAnswered p => ({ l with checking := l.checking.erase p.taskId }, .ok ())
  | .deviationDeclared p =>
    l.withTask p.taskId fun r => { r with departuresOwed := r.departuresOwed ++ [p] }
  | .deviationResolved p => l.withTask p.taskId fun r => r.answered p m.seq
  | .criterionDeclaredUnpassable _ => (l, .ok ())
  | .shapesRead p => ({ l with shapes := l.shapes.insert p.plan p }, .ok ())

/-- The price one criterion's execution adds; a reused result timed nothing. -/
def priced (prices : OrdMap String (List Nat)) (result : CriterionResult) :
    OrdMap String (List Nat) :=
  match result.durationMs with
  | some ms => OrdMap.upsert prices result.cmd [] fun costs => costs ++ [ms]
  | none => prices

/-- Folds one node-domain event into what it says about the tasks: a `criteria_checked` prices
    every criterion it ran. -/
def applyCriteria (l : TaskLedger) (event : NodeEvent) : TaskLedger :=
  match event with
  | .criteriaChecked p => { l with perCriterion := p.results.foldl priced l.perCriterion }
  | _ => l

/-- Folds a session a loop opened for one of its tasks. -/
def applySession (l : TaskLedger) (event : SessionEvent) : TaskLedger :=
  match event with
  | .opened p =>
    match p.taskId with
    | some task =>
      match l.get task with
      | some r =>
        { l with
          perTask :=
            l.perTask.insert task { r with lastSession := some p.sessionId, inSession := true } }
      | none => l
    | none => l
  | _ => l

/-! ## What a step can do -/

theorem contains_iff (l : TaskLedger) (task : TaskId) :
    l.contains task = true ↔ ∃ r, l.get task = some r := by
  unfold contains get
  rw [← Std.ExtTreeMap.isSome_getElem?_eq_contains, Option.isSome_iff_exists]

/-- A stop is what a blocked task's record names. -/
theorem mem_stops {l : TaskLedger} {stop : TaskStop} :
    stop ∈ l.stops ↔
      ∃ r, l.get stop.taskId = some r ∧ r.status = .blocked ∧ r.stop = some stop.cause := by
  simp only [stops, List.mem_filterMap, get]
  constructor
  · rintro ⟨⟨task, r⟩, hmem, hstop⟩
    split at hstop
    · next hblocked =>
      obtain ⟨cause, hcause, rfl⟩ := Option.map_eq_some_iff.mp hstop
      exact ⟨r, Std.ExtTreeMap.mem_toList_iff_getElem?_eq_some.mp hmem, hblocked, hcause⟩
    · cases hstop
  · rintro ⟨r, hget, hblocked, hcause⟩
    refine ⟨(stop.taskId, r), Std.ExtTreeMap.mem_toList_iff_getElem?_eq_some.mpr hget, ?_⟩
    simp [hblocked, hcause]

theorem get_registered (l : TaskLedger) (p : TaskRegisteredPayload) (m : EventMeta)
    (task : TaskId) :
    (l.apply (.registered p) m).1.get task =
      if p.taskId = task then some (((l.get task).getD {}).registered m) else l.get task := by
  show (OrdMap.upsert l.perTask p.taskId {} _)[task]? = _
  rw [OrdMap.getElem?_upsert]
  split
  · next h => rw [h]; rfl
  · rfl

theorem get_statusChanged {l : TaskLedger} {p : TaskStatusChangedPayload} (m : EventMeta)
    (h : l.contains p.taskId = true) (task : TaskId) :
    (l.apply (.statusChanged p) m).1.get task =
      if p.taskId = task then (l.get task).map fun r => r.statusChanged p m else l.get task := by
  obtain ⟨r, hr⟩ := (l.contains_iff p.taskId).mp h
  simp only [apply, statusChanged, withTask, hr]
  show (l.perTask.insert p.taskId _)[task]? = _
  rw [OrdMap.getElem?_insert_eq]
  split
  · next hs => rw [← hs, hr]; rfl
  · rfl

/-- A step on a registered task succeeds. -/
theorem withTask_ok {l : TaskLedger} {task : TaskId} (h : l.contains task = true)
    (f : TaskRecord → TaskRecord) : (l.withTask task f).2 = .ok () := by
  obtain ⟨r, hr⟩ := (l.contains_iff task).mp h
  simp [withTask, hr]

/-- **The ledger refuses nothing the tasks it holds can take**: an event that names only a
    registered task is folded. -/
theorem apply_ok {l : TaskLedger} {event : TaskEvent} (m : EventMeta)
    (h : ∀ task, (match event with
      | .statusChanged p => some p.taskId
      | .deviationDeclared p => some p.taskId
      | .deviationResolved p => some p.taskId
      | _ => none) = some task → l.contains task = true) : (l.apply event m).2 = .ok () := by
  cases event with
  | statusChanged p =>
    have hc := h p.taskId rfl
    obtain ⟨r, hr⟩ := (l.contains_iff p.taskId).mp hc
    simp [apply, statusChanged, withTask, hr]
  | deviationDeclared p => exact withTask_ok (h p.taskId rfl) _
  | deviationResolved p => exact withTask_ok (h p.taskId rfl) _
  | _ => rfl

end TaskLedger

end Yunta
