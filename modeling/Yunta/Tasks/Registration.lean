/-
  The registration every tasks document entails, and what a crash in the middle of it leaves.

  1. **Registering** — `planRegistration` says what follows each registration, over what the log
     says of the task; `register` appends one registration for each task, and the status change
     that follows it, if any.

  2. **What a registration does** — `recordAll_standing`: the standing of a task after the whole
     plan is its own entry's, settled over what stood before; `cut_cases`: a cut keeps the first
     entries whole, and of the next one at most the registration.

  3. **Registering again** — a second registration compares itself with what the first one wrote,
     so it takes a task cut differently for the same one.  `register_survives_cut` says exactly
     when the outcome is the same all the same.
-/
import Mathlib.Data.List.Nodup
import Yunta.Tasks.Recording

set_option linter.unusedVariables false

namespace Yunta

/-! ## Registering -/

/-- Where a tasks document came from, as far as its registration cares: nobody worked on its tasks
    before, or another run handed it over, and this is what of it the receiving tree has. -/
inductive Provenance where
  | fresh
  | inherited (carried : OrdMap TaskId CommitSha)

def Provenance.carried : Provenance → OrdMap TaskId CommitSha
  | .fresh => ∅
  | .inherited carried => carried

/-- What a task is, for the question of whether a status still describes it. -/
structure Identity where
  criteria : List Events.Criterion
  scope : List ScopeGlob
  deriving DecidableEq

def Identity.of (task : Task) : Identity where
  criteria := task.criteria.map (·.frozen)
  scope := task.scope

/-- The identity an event registers, and the task it is of. -/
def registeredIdentity (event : StoredEvent) : Option (TaskId × Identity) :=
  match event.payload with
  | some (.tasks (.registered p)) => some (p.taskId, ⟨p.criteria, p.scope⟩)
  | _ => none

/-- The most recent registration the log holds per task id. -/
def priorRegistrations (events : List StoredEvent) : OrdMap TaskId Identity :=
  (events.filterMap registeredIdentity).foldl (fun prior kv => prior.insert kv.1 kv.2) ∅

/-- What follows a registration, if anything. -/
inductive Follow where
  | reset
  | done (commit : CommitSha)
  deriving DecidableEq

structure Planned where
  task : Task
  follow : Option Follow

/-- What follows the registration of one task, over its prior registration, its status, and the
    commit another run left it at.  A reset wins over a `done` that crossed. -/
def followOf (task : Task) (prior : Option Identity) (status : Option TaskStatus)
    (carried : Option CommitSha) : Option Follow :=
  if prior.any (· ≠ Identity.of task) then some .reset
  else (carried.filter fun _ => status ≠ some .done).map .done

def planRegistration (document : TasksFile) (prior : OrdMap TaskId Identity) (current : TaskLedger)
    (carried : OrdMap TaskId CommitSha) : List Planned :=
  document.tasks.map fun task =>
    { task
      follow := followOf task prior[task.id]? (current.status task.id) carried[task.id]? }

/-- The registration of `task`, as the document states it. -/
def registrationOf (task : Task) : TaskRegisteredPayload where
  taskId := task.id
  criteria := task.criteria.map (·.frozen)
  scope := task.scope
  dependsOn := task.dependsOn

/-- One entry of the plan on the log: the registration, and the status change that follows. -/
def recordPlanned (log : RunLog) (node : Option NodeId) (events : List StoredEvent)
    (planned : Planned) : List StoredEvent :=
  let registered := log.next events node (.tasks (.registered (registrationOf planned.task)))
  let events := events ++ [registered]
  match planned.follow with
  | none => events
  | some .reset =>
    log.record events node
      (.tasks (.statusChanged (.to planned.task.id .pending registered.seq)))
  | some (.done commit) =>
    log.record events node
      (.tasks (.statusChanged (.done planned.task.id registered.seq commit)))

/-- Registers every task of `document` on the log, in document order, under the node the document
    entered through. -/
def register (log : RunLog) (events : List StoredEvent) (node : Option NodeId)
    (document : TasksFile) (provenance : Provenance) : List StoredEvent :=
  (planRegistration document (priorRegistrations events) (derive events).tasks
    provenance.carried).foldl (recordPlanned log node) events

/-! ## What a registration does -/

section Entries

variable (log : RunLog) (node : Option NodeId)

/-- Where an entry leaves its task, over where the task stood. -/
def settle (follow : Option Follow) (stood : Option (TaskStatus × Option CommitSha)) :
    TaskStatus × Option CommitSha :=
  match follow with
  | none => stood.getD (.pending, none)
  | some .reset => (.pending, (stood.getD (.pending, none)).2)
  | some (.done commit) => (.done, some commit)

/-- The registration of one entry, without what follows it. -/
def recordRegistered (log : RunLog) (node : Option NodeId) (events : List StoredEvent)
    (task : Task) : List StoredEvent :=
  log.record events node (.tasks (.registered (registrationOf task)))

theorem registered_standing {events : List StoredEvent} (h : Accepted events) (task : Task) :
    Accepted (recordRegistered log node events task) ∧
    ∀ id, (derive (recordRegistered log node events task)).tasks.standing id =
      if task.id = id then some (settle none ((derive events).tasks.standing id))
      else (derive events).tasks.standing id := by
  obtain ⟨hacc, hderive⟩ := derive_task h (log.next events node _) rfl
    (e := .registered (registrationOf task)) (fun _ h => nomatch h)
  refine ⟨hacc, fun id => ?_⟩
  rw [recordRegistered, RunLog.record, hderive, standing_registered]
  rfl

/-- A status change recorded on the log of a task it just registered. -/
theorem moved_standing {events : List StoredEvent} (h : Accepted events)
    {p : TaskStatusChangedPayload} (hreg : ((derive events).tasks.standing p.taskId).isSome) :
    Accepted (log.record events node (.tasks (.statusChanged p))) ∧
    ∀ id, (derive (log.record events node (.tasks (.statusChanged p)))).tasks.standing id =
      if p.taskId = id then
        ((derive events).tasks.standing id).map fun s => (p.newStatus, p.commit <|> s.2)
      else (derive events).tasks.standing id := by
  have hcontains : (derive events).tasks.contains p.taskId = true := by
    rw [TaskLedger.contains_standing, hreg]
  obtain ⟨hacc, hderive⟩ := derive_task h (log.next events node _) rfl
    (e := .statusChanged p) (fun task htask => by
      obtain rfl : p.taskId = task := by simpa [RunState.taskNamed] using htask
      exact hcontains)
  refine ⟨hacc, fun id => ?_⟩
  rw [RunLog.record, hderive, standing_statusChanged _ hcontains]

/-- **One entry**: its task is settled by what follows the registration, and no other moves. -/
theorem planned_standing {events : List StoredEvent} (h : Accepted events) (planned : Planned) :
    Accepted (recordPlanned log node events planned) ∧
    ∀ id, (derive (recordPlanned log node events planned)).tasks.standing id =
      if planned.task.id = id then
        some (settle planned.follow ((derive events).tasks.standing id))
      else (derive events).tasks.standing id := by
  obtain ⟨task, follow⟩ := planned
  obtain ⟨hacc, hstanding⟩ := registered_standing log node h task
  have hsome : ((derive (recordRegistered log node events task)).tasks.standing task.id).isSome := by
    rw [hstanding, if_pos rfl]
    rfl
  cases follow with
  | none => exact ⟨hacc, hstanding⟩
  | some follow =>
    cases follow with
    | reset =>
      obtain ⟨hacc', hmoved⟩ := moved_standing log node hacc
        (p := .to task.id .pending (events.length + 1)) hsome
      refine ⟨hacc', fun id => (hmoved id).trans ?_⟩
      rw [hstanding]
      by_cases hid : task.id = id
      · simp [TaskStatusChangedPayload.to, hid, settle]
      · simp [TaskStatusChangedPayload.to, hid]
    | done commit =>
      obtain ⟨hacc', hmoved⟩ := moved_standing log node hacc
        (p := .done task.id (events.length + 1) commit) hsome
      refine ⟨hacc', fun id => (hmoved id).trans ?_⟩
      rw [hstanding]
      by_cases hid : task.id = id
      · simp [TaskStatusChangedPayload.done, hid, settle]
      · simp [TaskStatusChangedPayload.done, hid]

theorem priorRegistrations_append (events : List StoredEvent) (event : StoredEvent) :
    priorRegistrations (events ++ [event]) =
      match registeredIdentity event with
      | some (id, identity) => (priorRegistrations events).insert id identity
      | none => priorRegistrations events := by
  simp only [priorRegistrations, List.filterMap_append, List.filterMap_cons, List.filterMap_nil]
  cases registeredIdentity event <;> simp [List.foldl_append]

/-- What a task is on record as, behind events that register it as nothing else. -/
theorem priorRegistrations_of_only {events more : List StoredEvent} {id : TaskId}
    {identity : Identity}
    (honly : ∀ event ∈ more, ∀ other, registeredIdentity event = some (id, other) →
      other = identity)
    (hknown : (priorRegistrations events)[id]? = some identity ∨
      ∃ event ∈ more, registeredIdentity event = some (id, identity)) :
    (priorRegistrations (events ++ more))[id]? = some identity := by
  induction more generalizing events with
  | nil => simpa using hknown
  | cons event more ih =>
    have hrest : (priorRegistrations (events ++ [event]))[id]? = some identity ∨
        ∃ event ∈ more, registeredIdentity event = some (id, identity) := by
      rw [priorRegistrations_append]
      cases hr : registeredIdentity event with
      | none =>
        rcases hknown with hprior | ⟨other, hother, h⟩
        · exact .inl hprior
        · rcases List.mem_cons.mp hother with rfl | hother
          · rw [hr] at h
            cases h
          · exact .inr ⟨other, hother, h⟩
      | some kv =>
        obtain ⟨named, written⟩ := kv
        by_cases hnamed : named = id
        · subst hnamed
          left
          rw [honly event List.mem_cons_self written hr]
          simp
        · rcases hknown with hprior | ⟨other, hother, h⟩
          · left
            rw [← hprior]
            exact (OrdMap.getElem?_insert_eq ..).trans (if_neg hnamed)
          · rcases List.mem_cons.mp hother with rfl | hother
            · rw [hr] at h
              cases h
              exact absurd rfl hnamed
            · exact .inr ⟨other, hother, h⟩
    have := ih (fun event hevent => honly event (List.mem_cons_of_mem _ hevent)) hrest
    rwa [List.append_assoc] at this

theorem registered_prior (events : List StoredEvent) (task : Task) (id : TaskId) :
    (priorRegistrations (recordRegistered log node events task))[id]? =
      if task.id = id then some (Identity.of task) else (priorRegistrations events)[id]? := by
  rw [recordRegistered, RunLog.record, priorRegistrations_append]
  exact OrdMap.getElem?_insert_eq ..

theorem planned_prior (events : List StoredEvent) (planned : Planned) (id : TaskId) :
    (priorRegistrations (recordPlanned log node events planned))[id]? =
      if planned.task.id = id then some (Identity.of planned.task)
      else (priorRegistrations events)[id]? := by
  have hmove : ∀ (events : List StoredEvent) (p : TaskStatusChangedPayload),
      priorRegistrations (log.record events node (.tasks (.statusChanged p))) =
        priorRegistrations events := fun events p => priorRegistrations_append events _
  rw [← registered_prior log node]
  obtain ⟨task, follow⟩ := planned
  rcases follow with _ | _ | commit
  · rfl
  · exact congrArg (·[id]?) (hmove (recordRegistered log node events task) _)
  · exact congrArg (·[id]?) (hmove (recordRegistered log node events task) _)

/-- The entry of a plan a task has. -/
def entryOf (plan : List Planned) (id : TaskId) : Option Planned :=
  plan.find? fun planned => planned.task.id = id

theorem entryOf_cons (planned : Planned) (plan : List Planned) (id : TaskId) :
    entryOf (planned :: plan) id =
      if planned.task.id = id then some planned else entryOf plan id := by
  simp only [entryOf, List.find?_cons]
  by_cases h : planned.task.id = id <;> simp [h]

theorem entryOf_none {plan : List Planned} {id : TaskId} (h : id ∉ plan.map (·.task.id)) :
    entryOf plan id = none := by
  refine List.find?_eq_none.mpr fun planned hmem => ?_
  simp only [decide_eq_true_eq]
  rintro rfl
  exact h (List.mem_map_of_mem hmem)

/-- **A whole plan**: each task is settled by its own entry, over where it stood before, and its
    prior registration is the one the plan wrote. -/
theorem recordAll_standing {plan : List Planned} (hnodup : (plan.map (·.task.id)).Nodup)
    {events : List StoredEvent} (h : Accepted events) :
    Accepted (plan.foldl (recordPlanned log node) events) ∧
    (∀ id, (derive (plan.foldl (recordPlanned log node) events)).tasks.standing id =
      match entryOf plan id with
      | some planned => some (settle planned.follow ((derive events).tasks.standing id))
      | none => (derive events).tasks.standing id) ∧
    ∀ id, (priorRegistrations (plan.foldl (recordPlanned log node) events))[id]? =
      match entryOf plan id with
      | some planned => some (Identity.of planned.task)
      | none => (priorRegistrations events)[id]? := by
  induction plan generalizing events with
  | nil => exact ⟨h, fun _ => rfl, fun _ => rfl⟩
  | cons planned plan ih =>
    obtain ⟨hout, hrest⟩ := List.nodup_cons.mp hnodup
    obtain ⟨hacc, hstanding⟩ := planned_standing log node h planned
    obtain ⟨hacc', hstanding', hprior'⟩ := ih hrest hacc
    refine ⟨hacc', fun id => (hstanding' id).trans ?_, fun id => (hprior' id).trans ?_⟩
    · rw [entryOf_cons, hstanding]
      by_cases hid : planned.task.id = id
      · rw [entryOf_none (by rw [← hid]; exact hout)]
        simp [hid]
      · simp [hid]
    · rw [entryOf_cons, planned_prior]
      by_cases hid : planned.task.id = id
      · rw [entryOf_none (by rw [← hid]; exact hout)]
        simp [hid]
      · simp [hid]

/-! ## What a cut keeps -/

/-- The events a log holds after its first `events`. -/
def since (events cut : List StoredEvent) : List StoredEvent := cut.drop events.length

def registers (task : TaskId) (event : StoredEvent) : Bool :=
  match event.payload with
  | some (.tasks (.registered p)) => p.taskId = task
  | _ => false

def moves (task : TaskId) (event : StoredEvent) : Bool :=
  match event.payload with
  | some (.tasks (.statusChanged p)) => p.taskId = task
  | _ => false

/-- What one entry writes: its registration alone, or that and one status change of its task. -/
theorem planned_shape (events : List StoredEvent) (planned : Planned) :
    (planned.follow = none ∧
      recordPlanned log node events planned = recordRegistered log node events planned.task) ∨
    (planned.follow.isSome ∧ ∃ event,
      recordPlanned log node events planned =
        recordRegistered log node events planned.task ++ [event] ∧
      ∀ id, registers id event = false ∧ moves id event = decide (planned.task.id = id)) := by
  obtain ⟨task, follow⟩ := planned
  rcases follow with _ | _ | commit
  · exact .inl ⟨rfl, rfl⟩
  · exact .inr ⟨rfl, _, rfl, fun _ => ⟨rfl, rfl⟩⟩
  · exact .inr ⟨rfl, _, rfl, fun _ => ⟨rfl, rfl⟩⟩

/-- What a whole plan writes: a registration for each task, a status change where one follows. -/
theorem recordAll_entries (plan : List Planned) (events : List StoredEvent) :
    ∃ more, plan.foldl (recordPlanned log node) events = events ++ more ∧
      ∀ id, more.any (registers id) = plan.any (fun planned => planned.task.id = id) ∧
        more.any (moves id) =
          plan.any fun planned => planned.task.id = id && planned.follow.isSome := by
  induction plan generalizing events with
  | nil => exact ⟨[], by simp, fun id => ⟨rfl, rfl⟩⟩
  | cons planned plan ih =>
    obtain ⟨more, hmore, hany⟩ := ih (recordPlanned log node events planned)
    rw [List.foldl_cons, hmore]
    rcases planned_shape log node events planned with
      ⟨hfollow, heq⟩ | ⟨hfollow, event, heq, hevent⟩
    · refine ⟨_ :: more, by rw [heq, recordRegistered, RunLog.record, List.append_assoc]; rfl,
        fun id => ?_⟩
      obtain ⟨hr, hm⟩ := hany id
      refine ⟨?_, ?_⟩
      · rw [List.any_cons, List.any_cons, hr]; rfl
      · rw [List.any_cons, List.any_cons, hm, hfollow]; simp [moves]
    · refine ⟨_ :: event :: more,
        by rw [heq, recordRegistered, RunLog.record, List.append_assoc, List.append_assoc]; rfl,
        fun id => ?_⟩
      obtain ⟨hr, hm⟩ := hany id
      obtain ⟨hre, hme⟩ := hevent id
      refine ⟨?_, ?_⟩
      · rw [List.any_cons, List.any_cons, List.any_cons, hr, hre]; rfl
      · rw [List.any_cons, List.any_cons, List.any_cons, hm, hme, hfollow]; simp [moves]

/-- What registering some tasks appends under a node: task events behind the log's last position,
    each registration among them the one of a task. -/
structure Registers (node : Option NodeId) (tasks : List Task) (events more : List StoredEvent) :
    Prop where
  taskEvents : ∀ event ∈ more, ∃ e, event.payload = some (.tasks e)
  under : ∀ event ∈ more, event.nodeId = node
  behind : ∀ event ∈ more, events.length < event.seq
  own : ∀ event ∈ more, ∀ id identity, registeredIdentity event = some (id, identity) →
    ∃ task ∈ tasks, task.id = id ∧ Identity.of task = identity

/-- One entry appends its registration, and no other. -/
theorem planned_registers (events : List StoredEvent) (planned : Planned) :
    ∃ more, recordPlanned log node events planned = events ++ more ∧
      Registers node [planned.task] events more ∧
      ∃ event ∈ more, event.payload = some (.tasks (.registered (registrationOf planned.task))) := by
  obtain ⟨task, follow⟩ := planned
  have hown : ∀ id identity,
      registeredIdentity (log.next events node (.tasks (.registered (registrationOf task)))) =
        some (id, identity) →
      ∃ written ∈ [task], written.id = id ∧ Identity.of written = identity := by
    intro id identity h
    cases h
    exact ⟨task, by simp, rfl, rfl⟩
  -- what follows a registration is a status change at the next position
  have hfollow : ∀ change : TaskStatusChangedPayload, ∃ more,
      log.record (recordRegistered log node events task) node (.tasks (.statusChanged change)) =
        events ++ more ∧ Registers node [task] events more ∧
      ∃ event ∈ more, event.payload = some (.tasks (.registered (registrationOf task))) := by
    intro change
    refine ⟨[log.next events node (.tasks (.registered (registrationOf task))),
      log.next (recordRegistered log node events task) node (.tasks (.statusChanged change))],
      by simp [RunLog.record, recordRegistered], ⟨?_, ?_, ?_, ?_⟩, _, List.mem_cons_self, rfl⟩
    · simp
    · simp [RunLog.next]
    · intro event hevent
      rcases List.mem_cons.mp hevent with rfl | hevent
      · show events.length < events.length + 1
        omega
      · obtain rfl := List.mem_singleton.mp hevent
        have hlen : (recordRegistered log node events task).length = events.length + 1 := by
          simp [recordRegistered, RunLog.record]
        show events.length < (recordRegistered log node events task).length + 1
        omega
    · intro event hevent id identity h
      rcases List.mem_cons.mp hevent with rfl | hevent
      · exact hown id identity h
      · obtain rfl := List.mem_singleton.mp hevent
        cases h
  rcases follow with _ | _ | commit
  · refine ⟨[log.next events node (.tasks (.registered (registrationOf task)))], rfl,
      ⟨?_, ?_, ?_, ?_⟩, _, List.mem_cons_self, rfl⟩
    · simp
    · simp [RunLog.next]
    · simp [RunLog.next]
    · intro event hevent id identity h
      obtain rfl := List.mem_singleton.mp hevent
      exact hown id identity h
  · exact hfollow _
  · exact hfollow _

/-- **A whole plan** appends the registration of each of its tasks, and no other. -/
theorem recordAll_registers (plan : List Planned) (events : List StoredEvent) :
    ∃ more, plan.foldl (recordPlanned log node) events = events ++ more ∧
      Registers node (plan.map (·.task)) events more ∧
      ∀ planned ∈ plan, ∃ event ∈ more,
        event.payload = some (.tasks (.registered (registrationOf planned.task))) := by
  induction plan generalizing events with
  | nil => exact ⟨[], by simp, ⟨by simp, by simp, by simp, by simp⟩, by simp⟩
  | cons planned plan ih =>
    obtain ⟨first, hfirst, hr, hwritten⟩ := planned_registers log node events planned
    obtain ⟨more, hmore, hrs, hwrittens⟩ := ih (recordPlanned log node events planned)
    refine ⟨first ++ more, ?_, ⟨?_, ?_, ?_, ?_⟩, ?_⟩
    · rw [List.foldl_cons, hmore, hfirst, List.append_assoc]
    · intro event hevent
      exact (List.mem_append.mp hevent).elim (hr.taskEvents event) (hrs.taskEvents event)
    · intro event hevent
      exact (List.mem_append.mp hevent).elim (hr.under event) (hrs.under event)
    · intro event hevent
      rcases List.mem_append.mp hevent with hevent | hevent
      · exact hr.behind event hevent
      · have hbehind := hrs.behind event hevent
        rw [hfirst, List.length_append] at hbehind
        omega
    · intro event hevent id identity h
      rcases List.mem_append.mp hevent with hevent | hevent
      · obtain ⟨task, htask, hid⟩ := hr.own event hevent id identity h
        exact ⟨task, List.mem_cons.mpr (.inl (List.mem_singleton.mp htask)), hid⟩
      · obtain ⟨task, htask, hid⟩ := hrs.own event hevent id identity h
        exact ⟨task, List.mem_cons_of_mem _ htask, hid⟩
    · intro other hother
      rcases List.mem_cons.mp hother with rfl | hother
      · obtain ⟨event, hevent, hp⟩ := hwritten
        exact ⟨event, List.mem_append_left _ hevent, hp⟩
      · obtain ⟨event, hevent, hp⟩ := hwrittens other hother
        exact ⟨event, List.mem_append_right _ hevent, hp⟩

/-- `cut` holds the first entries of `plan` whole, and of the next at most its registration. -/
def CutAtEntry (log : RunLog) (node : Option NodeId) (plan : List Planned)
    (events cut : List StoredEvent) : Prop :=
  ∃ done rest, plan = done ++ rest ∧
    (cut = done.foldl (recordPlanned log node) events ∨
      ∃ planned rest', rest = planned :: rest' ∧ planned.follow.isSome ∧
        cut = recordRegistered log node (done.foldl (recordPlanned log node) events) planned.task)

/-- **Where a cut can fall**: between two entries, or inside one, after its registration. -/
theorem cut_cases (plan : List Planned) (events : List StoredEvent) (n : Nat) :
    CutAtEntry log node plan events
      ((plan.foldl (recordPlanned log node) events).take (events.length + n)) := by
  induction plan generalizing events n with
  | nil => exact ⟨[], [], rfl, .inl (by simp)⟩
  | cons planned plan ih =>
    rw [List.foldl_cons]
    obtain ⟨more, hmore, -⟩ := recordAll_entries log node plan
      (recordPlanned log node events planned)
    -- past the first entry, the cut is one of the rest of the plan
    have hlater : ∀ k, events.length + n = (recordPlanned log node events planned).length + k →
        CutAtEntry log node (planned :: plan) events
          ((plan.foldl (recordPlanned log node) (recordPlanned log node events planned)).take
            (events.length + n)) := by
      intro k hk
      obtain ⟨done, rest, hplan, hcut⟩ := ih (recordPlanned log node events planned) k
      rw [hk]
      exact ⟨planned :: done, rest, by rw [hplan]; rfl, hcut⟩
    have hlen : (recordRegistered log node events planned.task).length = events.length + 1 := by
      simp [recordRegistered, RunLog.record]
    rcases planned_shape log node events planned with
      ⟨hfollow, heq⟩ | ⟨hfollow, event, heq, -⟩
    · have hall : (recordPlanned log node events planned).length = events.length + 1 := by
        rw [heq, hlen]
      rcases n with _ | n
      · refine ⟨[], _, rfl, .inl ?_⟩
        rw [hmore, heq, recordRegistered, RunLog.record]
        simp
      · exact hlater n (by omega)
    · have hall : (recordPlanned log node events planned).length = events.length + 2 := by
        rw [heq, List.length_append, hlen]
        rfl
      rcases n with _ | _ | n
      · refine ⟨[], _, rfl, .inl ?_⟩
        rw [hmore, heq, recordRegistered, RunLog.record]
        simp
      · refine ⟨[], _, rfl, .inr ⟨planned, plan, rfl, hfollow, ?_⟩⟩
        rw [hmore, heq, ← hlen, List.append_assoc, List.take_left]
        rfl
      · exact hlater n (by omega)

end Entries

/-! ## Registering again -/

/-- The log a crash leaves of a registration: what it held before, and the first `n` events the
    registration appended. -/
def registerCut (log : RunLog) (events : List StoredEvent) (node : Option NodeId)
    (document : TasksFile) (provenance : Provenance) (n : Nat) : List StoredEvent :=
  (register log events node document provenance).take (events.length + n)

/-- What registering a document appends, whole or cut, is registrations of its own tasks. -/
theorem register_registers (log : RunLog) (events : List StoredEvent) (node : Option NodeId)
    (document : TasksFile) (provenance : Provenance) :
    ∃ more, register log events node document provenance = events ++ more ∧
      Registers node document.tasks events more ∧
      ∀ task ∈ document.tasks, ∃ event ∈ more,
        event.payload = some (.tasks (.registered (registrationOf task))) := by
  obtain ⟨more, hmore, hregisters, hall⟩ := recordAll_registers log node
    (planRegistration document (priorRegistrations events) (derive events).tasks
      provenance.carried) events
  have htasks : (planRegistration document (priorRegistrations events) (derive events).tasks
      provenance.carried).map (·.task) = document.tasks := by
    simp [planRegistration, Function.comp_def]
  rw [htasks] at hregisters
  refine ⟨more, hmore, hregisters, ?_⟩
  intro task htask
  rw [← htasks] at htask
  obtain ⟨planned, hplanned, rfl⟩ := List.mem_map.mp htask
  exact hall planned hplanned

theorem registerCut_registers (log : RunLog) (events : List StoredEvent) (node : Option NodeId)
    (document : TasksFile) (provenance : Provenance) (n : Nat) :
    ∃ more, registerCut log events node document provenance n = events ++ more ∧
      Registers node document.tasks events more := by
  obtain ⟨more, hmore, hr, -⟩ := register_registers log events node document provenance
  have hsub : ∀ event ∈ more.take n, event ∈ more := fun event => List.mem_of_mem_take
  refine ⟨more.take n, ?_, ⟨?_, ?_, ?_, ?_⟩⟩
  · rw [registerCut, hmore, List.take_length_add_append]
  · exact fun event hevent => hr.taskEvents event (hsub event hevent)
  · exact fun event hevent => hr.under event (hsub event hevent)
  · exact fun event hevent => hr.behind event (hsub event hevent)
  · exact fun event hevent => hr.own event (hsub event hevent)

/-- The log registered `task` before, with other criteria or another scope. -/
def Recut (events : List StoredEvent) (task : Task) : Prop :=
  ∃ identity, (priorRegistrations events)[task.id]? = some identity ∧ identity ≠ Identity.of task

/-- What surviving the cut says: every task stands as after the whole registration, and a task cut
    differently starts again `pending`. -/
structure SurvivesCut (log : RunLog) (events : List StoredEvent) (node : Option NodeId)
    (document : TasksFile) (provenance : Provenance) (n : Nat) : Prop where
  same : ∀ id,
    (derive (register log (registerCut log events node document provenance n) node document
      provenance)).tasks.standing id =
    (derive (register log events node document provenance)).tasks.standing id
  restarts : Accepted events → ∀ task ∈ document.tasks, Recut events task →
    (derive (register log (registerCut log events node document provenance n) node document
      provenance)).tasks.status task.id = some .pending

/-- Every task cut differently whose registration is among the `kept` events carries no commit of
    another run, and has its reset kept too unless it was pending all along. -/
def ResetsKept (events kept : List StoredEvent) (document : TasksFile) (provenance : Provenance) :
    Prop :=
  Accepted events → ∀ task ∈ document.tasks, Recut events task → kept.any (registers task.id) →
    provenance.carried[task.id]? = none ∧
      (kept.any (moves task.id) ∨ ((derive events).tasks.status task.id).getD .pending = .pending)

theorem followOf_reset {task : Task} {prior : Option Identity} {status : Option TaskStatus}
    {carried : Option CommitSha} (h : prior.any (· ≠ Identity.of task) = true) :
    followOf task prior status carried = some .reset := if_pos h

theorem followOf_same {task : Task} {prior : Option Identity} {status : Option TaskStatus}
    {carried : Option CommitSha} (h : prior.any (· ≠ Identity.of task) = false) :
    followOf task prior status carried =
      (carried.filter fun _ => status ≠ some .done).map .done :=
  if_neg (by simpa using h)

/-- A task registered as it was before carries what another run left done. -/
theorem followOf_self (task : Task) (status : Option TaskStatus) (carried : Option CommitSha) :
    followOf task (some (Identity.of task)) status carried =
      (carried.filter fun _ => status ≠ some .done).map .done :=
  followOf_same (by simp)

/-- An entry kept whole, registered again: a reset is undone by a commit that crossed. -/
theorem settle_again {task : Task} (prior : Option Identity)
    (stood : Option (TaskStatus × Option CommitSha)) (carried : Option CommitSha) :
    settle (followOf task (some (Identity.of task))
        (some (settle (followOf task prior (stood.map (·.1)) carried) stood).1) carried)
      (some (settle (followOf task prior (stood.map (·.1)) carried) stood)) =
    settle (followOf task prior (stood.map (·.1)) carried) stood ↔
      (prior.any (· ≠ Identity.of task) = true → carried = none) := by
  rw [followOf_self]
  cases hrecut : prior.any (· ≠ Identity.of task) with
  | true =>
    rw [followOf_reset hrecut]
    cases carried <;> simp [settle, Option.filter]
  | false =>
    rw [followOf_same hrecut]
    rcases stood with _ | ⟨status, commit⟩
    · cases carried <;> simp [settle, Option.filter]
    · cases carried with
      | none => simp [settle, Option.filter]
      | some landed => by_cases hdone : status = .done <;> simp [settle, Option.filter, hdone]

/-- An entry cut after its registration, registered again: the reset is forgotten. -/
theorem settle_half {task : Task} (prior : Option Identity)
    (stood : Option (TaskStatus × Option CommitSha)) (carried : Option CommitSha)
    (hfollow : (followOf task prior (stood.map (·.1)) carried).isSome) :
    settle (followOf task (some (Identity.of task)) (some (settle none stood).1) carried)
      (some (settle none stood)) =
    settle (followOf task prior (stood.map (·.1)) carried) stood ↔
      (prior.any (· ≠ Identity.of task) = true →
        carried = none ∧ (stood.map (·.1)).getD .pending = .pending) := by
  rw [followOf_self]
  cases hrecut : prior.any (· ≠ Identity.of task) with
  | true =>
    rw [followOf_reset hrecut]
    rcases stood with _ | ⟨status, commit⟩
    · cases carried <;> simp [settle, Option.filter]
    · cases carried with
      | none => simp [settle, Option.filter]
      | some landed => by_cases hdone : status = .done <;> simp [settle, Option.filter, hdone]
  | false =>
    rw [followOf_same hrecut] at hfollow ⊢
    rcases stood with _ | ⟨status, commit⟩
    · cases carried <;> simp [settle, Option.filter] at hfollow ⊢
    · cases carried with
      | none => simp at hfollow
      | some landed => by_cases hdone : status = .done <;> simp [settle, Option.filter, hdone] at hfollow ⊢

theorem recut_iff {events : List StoredEvent} {task : Task} :
    Recut events task ↔
      (priorRegistrations events)[task.id]?.any (· ≠ Identity.of task) = true := by
  unfold Recut
  cases (priorRegistrations events)[task.id]? <;> simp

section Cut

variable {log : RunLog} {node : Option NodeId} {document : TasksFile} {provenance : Provenance}

theorem plan_ids (prior : OrdMap TaskId Identity) (current : TaskLedger)
    (carried : OrdMap TaskId CommitSha) :
    (planRegistration document prior current carried).map (·.task.id) =
      document.tasks.map (·.id) := by
  simp [planRegistration, Function.comp_def]

theorem plan_nodup (hdeclared : document.DeclaredOnce) (prior : OrdMap TaskId Identity)
    (current : TaskLedger) (carried : OrdMap TaskId CommitSha) :
    ((planRegistration document prior current carried).map (·.task.id)).Nodup := by
  rw [plan_ids]
  exact hdeclared

theorem registerCut_atEntry (log : RunLog) (node : Option NodeId) (document : TasksFile)
    (provenance : Provenance) (events : List StoredEvent) (n : Nat) :
    CutAtEntry log node (planRegistration document (priorRegistrations events)
      (derive events).tasks provenance.carried) events
      (registerCut log events node document provenance n) :=
  cut_cases log node _ events n

/-- **A whole registration**, over the log it is made on: each task of the document is settled by
    what follows its registration there. -/
theorem register_standing (hdeclared : document.DeclaredOnce) {events : List StoredEvent}
    (h : Accepted events) (id : TaskId) :
    (derive (register log events node document provenance)).tasks.standing id =
      match document.tasks.find? (·.id = id) with
      | some task => some (settle (followOf task (priorRegistrations events)[id]?
          ((derive events).tasks.standing id |>.map (·.1)) provenance.carried[id]?)
          ((derive events).tasks.standing id))
      | none => (derive events).tasks.standing id := by
  have hentry : entryOf (planRegistration document (priorRegistrations events)
      (derive events).tasks provenance.carried) id = (document.tasks.find? (·.id = id)).map _ :=
    List.find?_map ..
  rw [register, (recordAll_standing log node (plan_nodup hdeclared ..) h).2.1 id, hentry]
  cases hfind : document.tasks.find? (·.id = id) with
  | none => rfl
  | some task =>
    have hid : task.id = id := by simpa using List.find?_some hfind
    simp [hid, TaskLedger.status_standing]

/-- **What a cut says of one task**: its entry was kept whole, or its registration alone, or
    nothing of it. -/
theorem cut_standing (log : RunLog) (node : Option NodeId) {plan : List Planned} (hnodup : (plan.map (·.task.id)).Nodup)
    {events cut : List StoredEvent} (h : Accepted events)
    (hcut : CutAtEntry log node plan events cut) :
    Accepted cut ∧ ∀ id,
      (∃ planned ∈ plan, planned.task.id = id ∧
        (derive cut).tasks.standing id =
          some (settle planned.follow ((derive events).tasks.standing id)) ∧
        (priorRegistrations cut)[id]? = some (Identity.of planned.task) ∧
        (since events cut).any (registers id) = true ∧
        (since events cut).any (moves id) = planned.follow.isSome) ∨
      (∃ planned ∈ plan, planned.task.id = id ∧ planned.follow.isSome ∧
        (derive cut).tasks.standing id =
          some (settle none ((derive events).tasks.standing id)) ∧
        (priorRegistrations cut)[id]? = some (Identity.of planned.task) ∧
        (since events cut).any (registers id) = true ∧
        (since events cut).any (moves id) = false) ∨
      ((derive cut).tasks.standing id = (derive events).tasks.standing id ∧
        (priorRegistrations cut)[id]? = (priorRegistrations events)[id]? ∧
        (since events cut).any (registers id) = false) := by
  obtain ⟨done, rest, rfl, hcut⟩ := hcut
  rw [List.map_append] at hnodup
  obtain ⟨hdone, -, hapart⟩ := List.nodup_append.mp hnodup
  obtain ⟨hacc, hstanding, hprior⟩ := recordAll_standing log node hdone h
  obtain ⟨more, hmore, hany⟩ := recordAll_entries log node done events
  -- what the entries kept whole say of one task
  have hwhole : ∀ {id planned}, entryOf done id = some planned →
      planned ∈ done ++ rest ∧ planned.task.id = id ∧ more.any (registers id) = true ∧
        more.any (moves id) = planned.follow.isSome := by
    intro id planned hentry
    have hmem := List.mem_of_find?_eq_some hentry
    have hid : planned.task.id = id := by simpa using List.find?_some hentry
    obtain ⟨hr, hm⟩ := hany id
    refine ⟨List.mem_append_left _ hmem, hid, ?_, ?_⟩
    · rw [hr]
      exact List.any_eq_true.mpr ⟨planned, hmem, by simpa using hid⟩
    · rw [hm, Bool.eq_iff_iff, List.any_eq_true]
      constructor
      · rintro ⟨other, hother, hsame⟩
        simp only [Bool.and_eq_true, decide_eq_true_eq] at hsame
        have : other = planned :=
          List.inj_on_of_nodup_map hdone hother hmem (hsame.1.trans hid.symm)
        rw [← this]
        exact hsame.2
      · exact fun hf => ⟨planned, hmem, by simp [hid, hf]⟩
  have hnone : ∀ {id}, entryOf done id = none →
      more.any (registers id) = false ∧ more.any (moves id) = false := by
    intro id hentry
    have hout : ∀ planned ∈ done, ¬ planned.task.id = id := by
      simpa [entryOf] using hentry
    obtain ⟨hr, hm⟩ := hany id
    rw [hr, hm]
    refine ⟨?_, ?_⟩
    · simpa using hout
    · simp only [List.any_eq_false, Bool.and_eq_true, decide_eq_true_eq, not_and]
      exact fun planned hmem hid => absurd hid (hout planned hmem)
  rcases hcut with rfl | ⟨planned, rest', rfl, hfollow, rfl⟩
  · refine ⟨hacc, fun id => ?_⟩
    have hsince : since events (done.foldl (recordPlanned log node) events) = more := by
      rw [hmore, since, List.drop_left]
    rw [hstanding, hprior, hsince]
    cases hentry : entryOf done id with
    | none => exact .inr (.inr ⟨rfl, rfl, (hnone hentry).1⟩)
    | some planned =>
      obtain ⟨hmem, hid, hr, hm⟩ := hwhole hentry
      exact .inl ⟨planned, hmem, hid, rfl, rfl, hr, hm⟩
  · obtain ⟨hacc', hstanding'⟩ := registered_standing log node hacc planned.task
    refine ⟨hacc', fun id => ?_⟩
    have hsince : since events (recordRegistered log node
        (done.foldl (recordPlanned log node) events) planned.task) = more ++ [log.next
          (done.foldl (recordPlanned log node) events) node
          (.tasks (.registered (registrationOf planned.task)))] := by
      rw [recordRegistered, RunLog.record, hmore, since, List.append_assoc, List.drop_left]
    have hlast : ∀ (test : StoredEvent → Bool) (event : StoredEvent),
        (more ++ [event]).any test = (more.any test || test event) := by
      intro test event
      simp
    rw [hstanding', registered_prior, hsince, hlast, hlast, hstanding, hprior]
    by_cases hid : planned.task.id = id
    · have hentry : entryOf done id = none := by
        refine entryOf_none fun hmem => ?_
        exact hapart id hmem id (by simp [hid]) rfl
      obtain ⟨hr, hm⟩ := hnone hentry
      refine .inr (.inl ⟨planned, by simp, hid, hfollow, ?_, ?_, ?_, ?_⟩)
      · rw [if_pos hid, hentry]
      · rw [if_pos hid]
      · simp [registers, registrationOf, hid]
      · simp [hm, moves]
    · have hreg : registers id (log.next (done.foldl (recordPlanned log node) events) node
          (.tasks (.registered (registrationOf planned.task)))) = false := by
        simp [registers, registrationOf, hid]
      have hmov : moves id (log.next (done.foldl (recordPlanned log node) events) node
          (.tasks (.registered (registrationOf planned.task)))) = false := rfl
      rw [if_neg hid, if_neg hid, hreg, hmov, Bool.or_false, Bool.or_false]
      cases hentry : entryOf done id with
      | none => exact .inr (.inr ⟨rfl, rfl, (hnone hentry).1⟩)
      | some other =>
        obtain ⟨hmem, hid, hr, hm⟩ := hwhole hentry
        exact .inl ⟨other, hmem, hid, rfl, rfl, hr, hm⟩

theorem find_task (hdeclared : document.DeclaredOnce) {task : Task} (hmem : task ∈ document.tasks) :
    document.tasks.find? (·.id = task.id) = some task := by
  cases hfind : document.tasks.find? (·.id = task.id) with
  | none =>
    have := List.find?_eq_none.mp hfind task hmem
    simp at this
  | some other =>
    have hid : other.id = task.id := by simpa using List.find?_some hfind
    exact congrArg some
      (List.inj_on_of_nodup_map hdeclared (List.mem_of_find?_eq_some hfind) hmem hid)

/-- **One task across the cut**: registered again, it stands as after the whole registration exactly
    where its reset, if it owes one, was kept or changed nothing. -/
theorem again_iff (hdeclared : document.DeclaredOnce) {events : List StoredEvent}
    (h : Accepted events) (n : Nat) {task : Task} (hmem : task ∈ document.tasks) :
    (derive (register log (registerCut log events node document provenance n) node document
        provenance)).tasks.standing task.id =
      (derive (register log events node document provenance)).tasks.standing task.id ↔
    (Recut events task →
      (since events (registerCut log events node document provenance n)).any
        (registers task.id) = true →
      provenance.carried[task.id]? = none ∧
        ((since events (registerCut log events node document provenance n)).any
            (moves task.id) = true ∨
          ((derive events).tasks.status task.id).getD .pending = .pending)) := by
  obtain ⟨hacc, hcut⟩ := cut_standing log node (plan_nodup hdeclared ..) h
    (registerCut_atEntry log node document provenance events n)
  rw [register_standing hdeclared hacc, register_standing hdeclared h, find_task hdeclared hmem,
    recut_iff, TaskLedger.status_standing]
  -- the entry a plan has for the task is the one it makes of it
  have hentry : ∀ planned ∈ planRegistration document (priorRegistrations events)
      (derive events).tasks provenance.carried, planned.task.id = task.id →
      planned.task = task ∧ planned.follow = followOf task (priorRegistrations events)[task.id]?
        ((derive events).tasks.standing task.id |>.map (·.1)) provenance.carried[task.id]? := by
    intro planned hplanned hid
    obtain ⟨other, hother, rfl⟩ := List.mem_map.mp hplanned
    obtain rfl : other = task := List.inj_on_of_nodup_map hdeclared hother hmem hid
    exact ⟨rfl, by rw [TaskLedger.status_standing]⟩
  rcases hcut task.id with ⟨planned, hplanned, hid, hstands, hprior, hr, hm⟩ |
      ⟨planned, hplanned, hid, hsome, hstands, hprior, hr, hm⟩ | ⟨hstands, hprior, hr⟩
  · obtain ⟨htask, hfollow⟩ := hentry planned hplanned hid
    rw [hstands, hprior, hr, hm, htask, hfollow]
    simp only [Option.map_some, Option.some.injEq, true_implies]
    rw [settle_again]
    constructor
    · intro hcarried hrecut
      exact ⟨hcarried hrecut, .inl (by rw [followOf_reset hrecut]; rfl)⟩
    · exact fun hkept hrecut => (hkept hrecut).1
  · obtain ⟨htask, hfollow⟩ := hentry planned hplanned hid
    rw [hstands, hprior, hr, hm, htask]
    rw [hfollow] at hsome
    simp only [Option.map_some, Option.some.injEq, true_implies, Bool.false_eq_true, false_or]
    rw [settle_half _ _ _ hsome]
  · rw [hstands, hprior, hr]
    simp

end Cut

/-- **When a registration survives a crash.**  Cut anywhere and made again, it leaves every task as
    the whole one does exactly when each task cut differently whose registration was kept carries
    no commit, and has its reset kept too or was pending all along. -/
theorem register_survives_cut {document : TasksFile} (hdeclared : document.DeclaredOnce)
    (log : RunLog) (events : List StoredEvent) (node : Option NodeId) (provenance : Provenance)
    (n : Nat) :
    SurvivesCut log events node document provenance n ↔
      ResetsKept events (since events (registerCut log events node document provenance n))
        document provenance := by
  by_cases h : Accepted events
  · constructor
    · rintro ⟨hsame, -⟩ - task hmem hrecut hkept
      exact (again_iff hdeclared h n hmem).mp (hsame task.id) hrecut hkept
    · intro hkept
      have hsame : ∀ id,
          (derive (register log (registerCut log events node document provenance n) node document
            provenance)).tasks.standing id =
          (derive (register log events node document provenance)).tasks.standing id := by
        intro id
        cases hfind : document.tasks.find? (·.id = id) with
        | some task =>
          have hid : task.id = id := by simpa using List.find?_some hfind
          rw [← hid]
          have hmem := List.mem_of_find?_eq_some hfind
          exact (again_iff hdeclared h n hmem).mpr (hkept h task hmem)
        | none =>
          -- a task the document does not hold is moved by no registration
          have hout : ∀ task ∈ document.tasks, ¬ task.id = id := by simpa using hfind
          obtain ⟨hacc, hcut⟩ := cut_standing log node (plan_nodup hdeclared ..) h
            (registerCut_atEntry log node document provenance events n)
          have hno : ∀ planned ∈ planRegistration document (priorRegistrations events)
              (derive events).tasks provenance.carried, ¬ planned.task.id = id := by
            intro planned hplanned
            obtain ⟨task, hmem, rfl⟩ := List.mem_map.mp hplanned
            exact hout task hmem
          rw [register_standing hdeclared hacc, register_standing hdeclared h, hfind]
          rcases hcut id with ⟨planned, hp, hid, -⟩ | ⟨planned, hp, hid, -⟩ | ⟨hstands, -⟩
          · exact absurd hid (hno planned hp)
          · exact absurd hid (hno planned hp)
          · exact hstands
      refine ⟨hsame, fun _ task hmem hrecut => ?_⟩
      rw [TaskLedger.status_standing, hsame, register_standing hdeclared h,
        find_task hdeclared hmem]
      simp [followOf_reset (recut_iff.mp hrecut), settle]
  · -- a broken log takes no registration, whole or cut
    refine ⟨fun _ hacc => absurd hacc h, fun _ => ⟨fun id => ?_, fun hacc => absurd hacc h⟩⟩
    obtain ⟨whole, hwhole, -⟩ := recordAll_entries log node
      (planRegistration document (priorRegistrations events) (derive events).tasks
        provenance.carried) events
    have hcut : registerCut log events node document provenance n = events ++ whole.take n := by
      rw [registerCut, register, hwhole, List.take_length_add_append]
    obtain ⟨again, hagain, -⟩ := recordAll_entries log node
      (planRegistration document (priorRegistrations (events ++ whole.take n))
        (derive (events ++ whole.take n)).tasks provenance.carried) (events ++ whole.take n)
    rw [hcut, register, register, hagain, hwhole, List.append_assoc, derive_broken h,
      derive_broken h]

/-- A log that holds task `a` at `status`, registered with the criterion `true`. -/
def heldAt (status : TaskStatus) : List StoredEvent :=
  [⟨"", 1, 0, none, .known (.tasks (.registered { taskId := "a", criteria := [⟨"true", none⟩] }))⟩,
    ⟨"", 2, 0, none, .known (.tasks (.statusChanged (.to "a" status 1)))⟩]

/-- The same task, cut to another criterion. -/
def recutDocument : TasksFile :=
  { tasks := [{ id := "a", scope := [], criteria := [⟨"make test", none, none⟩] }] }

/-- A pending task cut differently: its registration kept and its reset lost, it starts again. -/
theorem register_survives_cut_pending :
    SurvivesCut {} (heldAt .pending) none recutDocument .fresh 1 := by
  refine (register_survives_cut (by decide) {} (heldAt .pending) none .fresh 1).mpr ?_
  intro _ task hmem _ _
  obtain rfl := List.mem_singleton.mp hmem
  exact ⟨by decide +kernel, .inr (by decide +kernel)⟩

/-- A task done under other criteria, its registration kept and its reset lost: registered again, it
    is still done, where the whole registration leaves it pending. -/
theorem not_register_survives_cut :
    (derive (register {} (registerCut {} (heldAt .done) none recutDocument .fresh 1) none
      recutDocument .fresh)).tasks.status "a" = some .done ∧
    (derive (register {} (heldAt .done) none recutDocument .fresh)).tasks.status "a" =
      some .pending ∧
    ¬ SurvivesCut {} (heldAt .done) none recutDocument .fresh 1 := by
  have hcut : (derive (register {} (registerCut {} (heldAt .done) none recutDocument .fresh 1) none
      recutDocument .fresh)).tasks.status "a" = some .done := by decide +kernel
  have hwhole : (derive (register {} (heldAt .done) none recutDocument .fresh)).tasks.status "a" =
      some .pending := by decide +kernel
  refine ⟨hcut, hwhole, fun h => ?_⟩
  have hsame := h.same "a"
  rw [TaskLedger.status_standing, hsame, ← TaskLedger.status_standing, hwhole] at hcut
  exact absurd hcut (by decide)

end Yunta
