/-
  What a loop does in an iteration that forms no batch: it asks a person about the departures that
  are owed an answer, and otherwise ends the node.

  1. **The endings** — `idleRound` asks about each departure owed (`resolveDepartures`), and where
     there is none `endIdle` takes the first ending that applies: a criterion no work can pass, a
     scope request owed, every task done, what the blocked tasks stopped on, a stall.

  2. **Whose stops they are** — both read every blocked task of the ledger (`TaskLedger.stops`), of
     this loop's document or not.  `judged_by_own` says when a loop is judged by its own document's
     tasks alone: `OwnStopsDecide`, the stops that decide the ending are tasks of the document.

  What a person answers is `decided`, any function of the log so far and the departure put to them,
  with the events the asking leaves on the log.
-/
import Yunta.Tasks.Judged
import Yunta.Tasks.Recording

set_option linter.unusedVariables false

namespace Yunta.Loop

/-! ## Departures -/

/-- A task blocked on the departures its session declared. -/
structure PendingDeparture where
  taskId : TaskId
  deviations : List DeviationDeclaredPayload
  deriving DecidableEq

/-- What holds a task to its criteria besides its plan, and the node that writes the spec again. -/
structure Holders where
  held : List String
  spec : Option SpecFile
  writer : Option NodeId

/-- Whether a departure is from a test the run's spec gave its task, which accepting writes again. -/
def Holders.respecifies (holders : Holders) (departure : PendingDeparture) : Bool :=
  departure.deviations.any fun deviation =>
    match deviation.departs with
    | .criterion cmd => heldBy departure.taskId cmd holders.held holders.spec = .spec
    | _ => false

/-- How an iteration ends the node. -/
inductive NodeEnd where
  | tasksDone (count : Nat)
  | failed (failure : Failure)
  | paused (reason : PauseReason)
  deriving DecidableEq

/-- Where a person's answer to a departure leaves the node. -/
inductive Settled where
  | accepted (accepted : Bool)
  | paused (reason : PauseReason)
  | unanswered

def settle (node : NodeId) (choice : HumanChoice) : Settled :=
  match ReservedOption.of choice.option with
  | some .accept => .accepted true
  | some .sendBack => .accepted false
  | some .abort => .paused (.gateAborted node choice.freeText)
  | _ => .unanswered

/-- The departures the ledger holds owed a person's answer. -/
def owedBy (stopped : List TaskStop) : List PendingDeparture :=
  stopped.filterMap fun stop =>
    match stop.cause with
    | .deviationOwed deviations => some ⟨stop.taskId, deviations⟩
    | _ => none

/-- The stop a departure that still owes a person's answer leaves its task with. -/
def owedStop (departure : PendingDeparture) : TaskStop :=
  ⟨departure.taskId, .deviationOwed departure.deviations⟩

/-- How the task goes on after the answer: from the work its last attempt left, in the session that
    departed when it was sent back. -/
def reopened (record : Option TaskRecord) (task : TaskId) (accepted : Bool) (resolved : Nat) :
    TaskStatusChangedPayload :=
  match record.bind fun r => r.leftWork.map (·.2), record.bind (·.lastSession), accepted with
  | some work, some session, false => .resuming task resolved work session
  | some work, _, _ => .continuing task resolved work
  | none, _, _ => .to task .pending resolved

/-- What the person answered, when they did, with where the log holds it; and the events the asking
    recorded. -/
abbrev Decided := List StoredEvent → PendingDeparture → List EventPayload × Option (HumanChoice × Nat)

/-- The node's end while `unanswered` departures still owe a person's answer. -/
def owing (unanswered : List TaskStop) : Option NodeEnd :=
  if unanswered.isEmpty then none else some (.failed (.tasksStopped unanswered))

/-- Puts each task's departures to a person and reopens the task on the answer. -/
def resolveDepartures (log : RunLog) (node : NodeId) (holders : Holders) (decided : Decided) :
    List PendingDeparture → List TaskStop → List StoredEvent → List StoredEvent × Option NodeEnd
  | [], unanswered, events => (events, owing unanswered)
  | departure :: pending, unanswered, events =>
    let (asked, answer) := decided events departure
    let events := asked.foldl (fun events payload => log.record events (some node) payload) events
    match answer with
    | none =>
      resolveDepartures log node holders decided pending (unanswered ++ [owedStop departure]) events
    | some (choice, resolved) =>
      match settle node choice with
      | .paused reason => (events, some (.paused reason))
      | .unanswered =>
        resolveDepartures log node holders decided pending (unanswered ++ [owedStop departure])
          events
      | .accepted accepted =>
        let respecifiedBy :=
          holders.writer.filter fun _ => accepted && holders.respecifies departure
        let said := choice.freeText.filter fun said => Text.trim said ≠ ""
        let events := log.record events (some node)
          (.tasks (.deviationResolved ⟨departure.taskId, accepted, said, respecifiedBy⟩))
        let record := (derive events).tasks.get departure.taskId
        let events := log.record events (some node)
          (.tasks (.statusChanged (reopened record departure.taskId accepted resolved)))
        resolveDepartures log node holders decided pending unanswered events

/-! ## The endings -/

/-- What a stop declares unpassable. -/
def unpassableTask (stop : TaskStop) : Option UnpassableTask :=
  match stop.cause with
  | .criterionUnpassable declared => some ⟨declared.taskId, declared.criterion, declared.why⟩
  | _ => none

/-- The plan-unpassable failure of the tasks the ledger holds stopped on a declared criterion. -/
def unpassableOf (stopped : List TaskStop) : Option (List UnpassableTask) :=
  let unpassable := stopped.filterMap unpassableTask
  if unpassable.isEmpty then none else some unpassable

/-- The account's limit a stop names. -/
def limitOf (stop : TaskStop) : Option AccountLimit :=
  match stop.cause with
  | .sessionLimited limit => some limit
  | _ => none

/-- What the tasks the ledger holds stopped end the loop on: the account's limit when a session hit
    one, and otherwise the stops themselves. -/
def stoppedFailure (stopped : List TaskStop) : Option Failure :=
  match stopped.findSome? limitOf with
  | some limit => some (.limit limit)
  | none => if stopped.isEmpty then none else some (.tasksStopped stopped)

/-- Whether `now` names only tasks and criteria `earlier` named too. -/
def declaresAgain (earlier : Failure) (now : List UnpassableTask) : Bool :=
  match earlier with
  | .planUnpassable before =>
    now.all fun task => before.any fun known => known.taskId = task.taskId && known.cmd = task.cmd
  | _ => false

/-- What a loop fails on over criteria no work can pass: a repeat of the declaration that failed the
    node before is that failure again. -/
def unpassableFailure (earlier : Option FailedAttempt) (unpassable : List UnpassableTask) :
    Failure :=
  match earlier with
  | some earlier =>
    if declaresAgain earlier.failure unpassable then
      Failure.unchangedSince earlier.attempt earlier.failure
    else .planUnpassable unpassable
  | none => .planUnpassable unpassable

/-- The failure a loop ends on while scope requests are owed a person's decision. -/
def owedFailure (owed : List OwedScope) : Option Failure :=
  if owed.isEmpty then none else some (.scopeOwed owed)

/-- The tasks of the document that are not done. -/
def notDone (tasks : TasksFile) (ledger : TaskLedger) : List TaskId :=
  (tasks.tasks.filter fun task => ledger.status task.id ≠ some .done).map (·.id)

/-- Ends an iteration that forms no batch and owes no departure. -/
def endIdle (tasks : TasksFile) (owed : List OwedScope) (earlier : Option FailedAttempt)
    (left : List TaskId) (stopped : List TaskStop) : NodeEnd :=
  match unpassableOf stopped with
  | some unpassable => .failed (unpassableFailure earlier unpassable)
  | none =>
    match owedFailure owed with
    | some failure => .failed failure
    | none =>
      if left.isEmpty then .tasksDone tasks.tasks.length
      else
        match stoppedFailure stopped with
        | some failure => .failed failure
        | none => .failed (.loopStalled left)

/-- What an iteration that forms no batch does: the log it leaves, and the node's end, or `none`
    when the loop goes on to its next iteration. -/
def idleRound (log : RunLog) (node : NodeId) (tasks : TasksFile) (holders : Holders)
    (decided : Decided) (owed : List OwedScope) (iteration : Nat) (events : List StoredEvent) :
    List StoredEvent × Option NodeEnd :=
  let state := derive events
  let left := notDone tasks state.tasks
  let events := log.record events (some node)
    (.children (.loopIteration ⟨iteration, left.isEmpty⟩))
  let stopped := state.tasks.stops
  let departures := owedBy stopped
  if departures.isEmpty then
    let earlier := (state.nodes.get node).bind (·.failedBefore)
    (events, some (endIdle tasks owed earlier left stopped))
  else resolveDepartures log node holders decided departures [] events

/-! ## Whose stops decide -/

variable {tasks : TasksFile} {owed : List OwedScope} {earlier : Option FailedAttempt}
variable {stopped : List TaskStop}

/-- The tasks of the document. -/
def ids (tasks : TasksFile) : List TaskId := tasks.tasks.map (·.id)

/-- Among `stopped`, a task of the document stopped on what `asks` reads from its stop. -/
def OwnStop (tasks : TasksFile) (stopped : List TaskStop) (asks : TaskStop → Prop) : Prop :=
  ∃ stop ∈ stopped, stop.taskId ∈ ids tasks ∧ asks stop

/-- A failure that names a plan-unpassable criterion, a stopped task, its limit or an owed departure
    names one that a task of the document stopped on. -/
def FailsOnOwn (tasks : TasksFile) (stopped : List TaskStop) : Failure → Prop
  | .tasksStopped named => ∀ stop ∈ named, stop.taskId ∈ ids tasks
  | .limit limit => OwnStop tasks stopped fun stop => limitOf stop = some limit
  | .planUnpassable named =>
    ∀ task ∈ named, OwnStop tasks stopped fun stop => unpassableTask stop = some task
  | .unchanged _ _ =>
    ∀ task ∈ stopped.filterMap unpassableTask,
      OwnStop tasks stopped fun stop => unpassableTask stop = some task
  | _ => True

/-- A loop is judged by its own document's tasks alone, whatever a person answers: it closes once
    they are all done and none of them owes a scope request or a departure, and it fails on a stop
    only when it is theirs. -/
def JudgedByOwn (log : RunLog) (node : NodeId) (tasks : TasksFile) (holders : Holders)
    (owed : List OwedScope) (iteration : Nat) (events : List StoredEvent) : Prop :=
  ∀ decided : Decided,
    let stopped := (derive events).tasks.stops
    let ending := (idleRound log node tasks holders decided owed iteration events).2
    ((∀ task ∈ tasks.tasks, (derive events).tasks.status task.id = some .done) → owed = [] →
      (∀ departure ∈ owedBy stopped, departure.taskId ∉ ids tasks) →
      ending = some (.tasksDone tasks.tasks.length)) ∧
    ∀ failure, ending = some (.failed failure) → FailsOnOwn tasks stopped failure

/-- The stops that decide how the iteration ends are stops of the document's tasks: every departure
    owed; with none owed, every criterion declared unpassable; and with neither, where no request is
    owed and tasks are left, the first limit hit, or every stop when there is none. -/
def OwnStopsDecide (tasks : TasksFile) (owed : List OwedScope) (ledger : TaskLedger) : Prop :=
  let stopped := ledger.stops
  (∀ departure ∈ owedBy stopped, departure.taskId ∈ ids tasks) ∧
  (owedBy stopped = [] →
    (∀ task ∈ stopped.filterMap unpassableTask,
      OwnStop tasks stopped fun stop => unpassableTask stop = some task) ∧
    (stopped.filterMap unpassableTask = [] → owed = [] → notDone tasks ledger ≠ [] →
      match stopped.findSome? limitOf with
      | some limit => OwnStop tasks stopped fun stop => limitOf stop = some limit
      | none => ∀ stop ∈ stopped, stop.taskId ∈ ids tasks))

/-- Every task is done exactly when none is left. -/
theorem notDone_nil {ledger : TaskLedger} :
    notDone tasks ledger = [] ↔ ∀ task ∈ tasks.tasks, ledger.status task.id = some .done := by
  simp [notDone, List.filter_eq_nil_iff]

/-- A done task has no stop. -/
theorem not_own_of_done {ledger : TaskLedger}
    (hdone : ∀ task ∈ tasks.tasks, ledger.status task.id = some .done) {stop : TaskStop}
    (hstop : stop ∈ ledger.stops) : stop.taskId ∉ ids tasks := by
  intro hown
  obtain ⟨task, htask, hid⟩ := List.mem_map.mp hown
  obtain ⟨r, hget, hblocked, -⟩ := TaskLedger.mem_stops.mp hstop
  have hstatus := hdone task htask
  rw [TaskLedger.status, hid, hget, Option.map_some, hblocked] at hstatus
  cases hstatus

/-- The departures a person leaves unanswered are stops of the tasks that owe them. -/
theorem resolveDepartures_owes (log : RunLog) (node : NodeId) (holders : Holders)
    (decided : Decided) (pending : List PendingDeparture) (unanswered : List TaskStop)
    (events : List StoredEvent) {failure : Failure}
    (h : (resolveDepartures log node holders decided pending unanswered events).2 =
      some (.failed failure)) :
    ∃ named, failure = .tasksStopped named ∧
      ∀ stop ∈ named, stop ∈ unanswered ∨ ∃ departure ∈ pending, stop = owedStop departure := by
  induction pending generalizing unanswered events with
  | nil =>
    simp only [resolveDepartures, owing] at h
    split at h
    · cases h
    · cases h
      exact ⟨unanswered, rfl, fun stop hstop => Or.inl hstop⟩
  | cons departure pending ih =>
    have hlater : ∀ {u e}, (∀ stop ∈ u, stop ∈ unanswered ∨ stop = owedStop departure) →
        (resolveDepartures log node holders decided pending u e).2 = some (.failed failure) →
        ∃ named, failure = .tasksStopped named ∧ ∀ stop ∈ named,
          stop ∈ unanswered ∨ ∃ d ∈ departure :: pending, stop = owedStop d := by
      intro u e hu hr
      obtain ⟨named, hfailure, hnamed⟩ := ih u e hr
      refine ⟨named, hfailure, fun stop hstop => ?_⟩
      rcases hnamed stop hstop with hstop | ⟨d, hd, hstop⟩
      · rcases hu stop hstop with hstop | hstop
        · exact Or.inl hstop
        · exact Or.inr ⟨departure, List.mem_cons_self .., hstop⟩
      · exact Or.inr ⟨d, List.mem_cons_of_mem _ hd, hstop⟩
    have hmore : ∀ stop ∈ unanswered ++ [owedStop departure],
        stop ∈ unanswered ∨ stop = owedStop departure := by
      intro stop hstop
      simpa using hstop
    simp only [resolveDepartures] at h
    split at h
    · exact hlater hmore h
    · split at h
      · cases h
      · exact hlater hmore h
      · exact hlater (fun stop hstop => Or.inl hstop) h

/-- With nobody to ask, a loop fails on every departure owed. -/
theorem resolveDepartures_unanswered (log : RunLog) (node : NodeId) (holders : Holders)
    (pending : List PendingDeparture) (unanswered : List TaskStop) (events : List StoredEvent) :
    (resolveDepartures log node holders (fun _ _ => ([], none)) pending unanswered events).2 =
      owing (unanswered ++ pending.map owedStop) := by
  induction pending generalizing unanswered with
  | nil => simp [resolveDepartures]
  | cons departure pending ih =>
    simp only [resolveDepartures, List.foldl_nil]
    rw [ih]
    simp

/-- However an unpassable criterion fails the loop, it is a failure on those criteria. -/
theorem failsOnOwn_unpassable :
    FailsOnOwn tasks stopped (unpassableFailure earlier (stopped.filterMap unpassableTask)) ↔
      ∀ task ∈ stopped.filterMap unpassableTask,
        OwnStop tasks stopped fun stop => unpassableTask stop = some task := by
  unfold unpassableFailure
  cases earlier with
  | none => exact Iff.rfl
  | some earlier =>
    by_cases hagain : declaresAgain earlier.failure (stopped.filterMap unpassableTask) = true
    · show FailsOnOwn tasks stopped (if _ then _ else _) ↔ _
      rw [if_pos hagain]
      cases hfailure : earlier.failure with
      | planUnpassable before => exact Iff.rfl
      | _ =>
        rw [hfailure] at hagain
        cases hagain
    · show FailsOnOwn tasks stopped (if _ then _ else _) ↔ _
      rw [if_neg hagain]
      exact Iff.rfl

/-- The endings of an iteration that owes no departure, in the order they are tried. -/
theorem endIdle_cases (tasks : TasksFile) (owed : List OwedScope) (earlier : Option FailedAttempt)
    (left : List TaskId) (stopped : List TaskStop) :
    (stopped.filterMap unpassableTask ≠ [] →
      endIdle tasks owed earlier left stopped =
        .failed (unpassableFailure earlier (stopped.filterMap unpassableTask))) ∧
    (stopped.filterMap unpassableTask = [] →
      (owed ≠ [] → endIdle tasks owed earlier left stopped = .failed (.scopeOwed owed)) ∧
      (owed = [] →
        (left = [] → endIdle tasks owed earlier left stopped = .tasksDone tasks.tasks.length) ∧
        (left ≠ [] → endIdle tasks owed earlier left stopped =
          .failed ((stoppedFailure stopped).getD (.loopStalled left))))) := by
  refine ⟨fun hne => ?_, fun hnil => ⟨fun hne => ?_, fun hnone => ⟨fun hleft => ?_, fun hleft => ?_⟩⟩⟩
  · simp [endIdle, unpassableOf, hne]
  · simp [endIdle, unpassableOf, hnil, owedFailure, hne]
  · simp [endIdle, unpassableOf, hnil, owedFailure, hnone, hleft]
  · simp only [endIdle, unpassableOf, hnil, owedFailure, hnone, List.isEmpty_nil, if_true,
      List.isEmpty_iff, if_neg hleft]
    cases stoppedFailure stopped <;> rfl

/-- What the stops themselves end a loop on is its own tasks' exactly when the first limit is, or
    every stop where there is none. -/
theorem failsOnOwn_stopped {left : List TaskId} :
    FailsOnOwn tasks stopped ((stoppedFailure stopped).getD (.loopStalled left)) ↔
      match stopped.findSome? limitOf with
      | some limit => OwnStop tasks stopped fun stop => limitOf stop = some limit
      | none => ∀ stop ∈ stopped, stop.taskId ∈ ids tasks := by
  unfold stoppedFailure
  cases stopped.findSome? limitOf with
  | some limit => exact Iff.rfl
  | none =>
    cases stopped with
    | nil => simp [FailsOnOwn]
    | cons stop stopped => exact Iff.rfl

/-- **Whose stops decide.**  A loop is judged by its own document's tasks alone exactly when the
    stops that decide how it ends are theirs. -/
theorem judged_by_own (log : RunLog) (node : NodeId) (tasks : TasksFile) (holders : Holders)
    (owed : List OwedScope) (iteration : Nat) (events : List StoredEvent) :
    JudgedByOwn log node tasks holders owed iteration events ↔
      OwnStopsDecide tasks owed (derive events).tasks := by
  set ledger := (derive events).tasks with hledger
  -- the round, where a departure is owed and where none is
  have hround : ∀ decided, owedBy ledger.stops = [] →
      (idleRound log node tasks holders decided owed iteration events).2 =
        some (endIdle tasks owed (((derive events).nodes.get node).bind (·.failedBefore))
          (notDone tasks ledger) ledger.stops) := by
    intro decided hnone
    simp [idleRound, ← hledger, hnone]
  have hasked : ∀ decided, owedBy ledger.stops ≠ [] →
      ∃ events', (idleRound log node tasks holders decided owed iteration events).2 =
        (resolveDepartures log node holders decided (owedBy ledger.stops) [] events').2 := by
    intro decided hsome
    refine ⟨log.record events (some node)
      (.children (.loopIteration ⟨iteration, (notDone tasks ledger).isEmpty⟩)), ?_⟩
    simp only [idleRound, ← hledger, List.isEmpty_iff, if_neg hsome]
  have hcases := endIdle_cases tasks owed (((derive events).nodes.get node).bind (·.failedBefore))
    (notDone tasks ledger) ledger.stops
  constructor
  · intro hjudged
    refine ⟨?_, ?_⟩
    · -- with nobody to answer, every departure owed is named
      intro departure hdeparture
      have hsome : owedBy ledger.stops ≠ [] := List.ne_nil_of_mem hdeparture
      obtain ⟨events', hending⟩ := hasked (fun _ _ => ([], none)) hsome
      rw [resolveDepartures_unanswered, List.nil_append] at hending
      have howes : owing ((owedBy ledger.stops).map owedStop) =
          some (.failed (.tasksStopped ((owedBy ledger.stops).map owedStop))) := by
        simp [owing, hsome]
      have hown := (hjudged (fun _ _ => ([], none))).2 _ (hending.trans howes)
      exact hown (owedStop departure) (List.mem_map_of_mem hdeparture)
    · intro hnone
      have hending := hround (fun _ _ => ([], none)) hnone
      have hown := (hjudged (fun _ _ => ([], none))).2
      rw [hending] at hown
      refine ⟨?_, ?_⟩
      · by_cases hunpassable : ledger.stops.filterMap unpassableTask = []
        · rw [hunpassable]
          intro task htask
          cases htask
        · rw [hcases.1 hunpassable] at hown
          exact failsOnOwn_unpassable.mp (hown _ rfl)
      · intro hunpassable howed hleft
        rw [((hcases.2 hunpassable).2 howed).2 hleft] at hown
        exact failsOnOwn_stopped.mp (hown _ rfl)
  · rintro ⟨hdepartures, hrest⟩ decided
    refine ⟨?_, ?_⟩
    · intro hdone howed hnot
      have hnone : owedBy ledger.stops = [] := by
        refine List.eq_nil_iff_forall_not_mem.mpr fun departure hd => ?_
        exact hnot departure hd (hdepartures departure hd)
      have hunpassable : ledger.stops.filterMap unpassableTask = [] := by
        refine List.eq_nil_iff_forall_not_mem.mpr fun task htask => ?_
        obtain ⟨stop, hstop, hown, -⟩ := (hrest hnone).1 task htask
        exact not_own_of_done hdone hstop hown
      show (idleRound log node tasks holders decided owed iteration events).2 = _
      rw [hround decided hnone, ((hcases.2 hunpassable).2 howed).1 (notDone_nil.mpr hdone)]
    · intro failure hfailure
      by_cases hnone : owedBy ledger.stops = []
      · replace hfailure := (hround decided hnone).symm.trans hfailure
        simp only [Option.some.injEq] at hfailure
        obtain ⟨hunpassables, hstops⟩ := hrest hnone
        by_cases hunpassable : ledger.stops.filterMap unpassableTask = []
        · by_cases howed : owed = []
          · by_cases hleft : notDone tasks ledger = []
            · rw [((hcases.2 hunpassable).2 howed).1 hleft] at hfailure
              cases hfailure
            · rw [((hcases.2 hunpassable).2 howed).2 hleft] at hfailure
              cases hfailure
              exact failsOnOwn_stopped.mpr (hstops hunpassable howed hleft)
          · rw [(hcases.2 hunpassable).1 howed] at hfailure
            cases hfailure
            trivial
        · rw [hcases.1 hunpassable] at hfailure
          cases hfailure
          exact failsOnOwn_unpassable.mpr hunpassables
      · obtain ⟨events', hending⟩ := hasked decided hnone
        obtain ⟨named, rfl, hnamed⟩ := resolveDepartures_owes log node holders decided _ _ _
          (hending.symm.trans hfailure)
        intro stop hstop
        rcases hnamed stop hstop with hc | ⟨departure, hd, rfl⟩
        · cases hc
        · exact hdepartures departure hd

/-! ## A plan that dropped a task -/

/-- The first plan's task `x` blocked on a criterion no work can pass; the plan the loop works now
    holds `a` alone, and `a` is done. -/
def replanned : List StoredEvent :=
  let unpassable : TaskCause := .criterionUnpassable ⟨"x", "false", 1, "false exits 1"⟩
  let blocked : TaskStatusChangedPayload :=
    { TaskStatusChangedPayload.to "x" .blocked 1 with stop := some unpassable }
  let payloads : List EventPayload :=
    [.tasks (.registered { taskId := "x" }),
      .tasks (.statusChanged blocked),
      .tasks (.registered { taskId := "a" }),
      .tasks (.statusChanged (.to "a" .done 3))]
  payloads.zipIdx.map fun (payload, i) => ⟨"", i + 1, 0, some "implement", .known payload⟩

def onlyA : TasksFile := { tasks := [{ id := "a", scope := [], criteria := [] }] }

/-- **A dropped task fails the loop**: every task of the document is done and nothing is owed, and
    the loop fails on what `x` stopped on. -/
theorem not_judged_by_own :
    (derive replanned).tasks.status "a" = some .done ∧
      (idleRound {} "implement" onlyA ⟨[], none, none⟩ (fun _ _ => ([], none)) [] 1 replanned).2 =
        some (.failed (.planUnpassable [⟨"x", "false", "false exits 1"⟩])) ∧
      ¬ JudgedByOwn {} "implement" onlyA ⟨[], none, none⟩ [] 1 replanned := by
  have hdone : (derive replanned).tasks.status "a" = some .done := by decide +kernel
  have hending : (idleRound {} "implement" onlyA ⟨[], none, none⟩ (fun _ _ => ([], none)) [] 1
      replanned).2 = some (.failed (.planUnpassable [⟨"x", "false", "false exits 1"⟩])) := by
    decide +kernel
  refine ⟨hdone, hending, fun hjudged => ?_⟩
  have hnone : owedBy (derive replanned).tasks.stops = [] := by decide +kernel
  have hcloses := (hjudged (fun _ _ => ([], none))).1
    (fun task htask => by rw [List.mem_singleton.mp htask]; exact hdone) rfl
    (fun departure hd => by rw [hnone] at hd; cases hd)
  rw [hending] at hcloses
  cases hcloses

end Yunta.Loop
