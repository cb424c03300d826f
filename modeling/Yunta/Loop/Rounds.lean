/-
  A loop works a plan through in dependency order.

  1. **A round** — a batch is selected from the state the log derives, and its work goes on the
     log: each member is marked running, then done, and no other task moves.  What else the round
     records, grants and checks among it, is any other event the log takes, in any order.

  2. **Sound logs** — every task is pending, running or done, and what a started task depends on is
     done.  A round cut anywhere keeps that (`Sound.cut`): a selection from the cut log goes on.

  3. **Main result** — `works_through`: over every run of rounds, whatever the grants widen in it.
-/
import Yunta.Loop.Batch
import Yunta.Loop.Moves
import Yunta.Tasks.Reopening

set_option linter.unusedVariables false

namespace Yunta.Loop

open RunState

/-! ## Rounds -/

section

variable (selects : ScopeGlob → String → Bool) (document : TasksFile) (concurrency : Option Nat)

/-- The batch a loop selects from the state its log derives. -/
def batchAt (log : List StoredEvent) : List Task :=
  selectBatch selects document (derive log) (concurrencyOf concurrency)

/-- The work of a batch on the log: each member is marked running, then done, and no other task
    moves.  The log takes every event of it. -/
structure Worked (log : List StoredEvent) (batch : List Task) (events : List StoredEvent) :
    Prop where
  accepted : Accepted (log ++ events)
  members : ∀ task ∈ batch, moves task.id events = [.running, .done]
  others : ∀ id, id ∉ batch.map (·.id) → moves id events = []

/-- A run of rounds from one log to another, by the logs its batches were selected from. -/
inductive Rounds : List StoredEvent → List (List StoredEvent) → List StoredEvent → Prop where
  | stop (log : List StoredEvent) : Rounds log [] log
  | round {log events last : List StoredEvent} {rounds : List (List StoredEvent)}
      (hne : batchAt selects document concurrency log ≠ [])
      (hworked : Worked log (batchAt selects document concurrency log) events)
      (rest : Rounds (log ++ events) rounds last) : Rounds log (log :: rounds) last

/-- Every task a run of rounds dispatched, in order. -/
def dispatched (rounds : List (List StoredEvent)) : List Task :=
  rounds.flatMap (batchAt selects document concurrency)

/-- Whether `id` is done in the state a log derives. -/
def DoneAt (log : List StoredEvent) (id : TaskId) : Prop :=
  (derive log).tasks.status id = some .done

instance (log : List StoredEvent) (id : TaskId) : Decidable (DoneAt log id) :=
  inferInstanceAs (Decidable (_ = _))

/-- A log a loop goes on from: every task is pending, running or done, and what a started task
    depends on is done. -/
structure Sound (log : List StoredEvent) : Prop where
  accepted : Accepted log
  standing : ∀ task ∈ document.tasks, (derive log).tasks.status task.id = some .pending ∨
    (derive log).tasks.status task.id = some .running ∨ DoneAt log task.id
  dependencies : ∀ task ∈ document.tasks,
    (derive log).tasks.status task.id ≠ some .pending → ∀ dep ∈ task.dependsOn, DoneAt log dep

end

variable {selects : ScopeGlob → String → Bool} {document : TasksFile} {concurrency : Option Nat}
  {log last events : List StoredEvent} {rounds : List (List StoredEvent)}

/-- A plan no task of which was started is sound. -/
theorem Sound.of_pending (h : Accepted log)
    (hpending : ∀ task ∈ document.tasks, (derive log).tasks.status task.id = some .pending) :
    Sound document log where
  accepted := h
  standing task htask := .inl (hpending task htask)
  dependencies task htask hnot := absurd (hpending task htask) hnot

/-! ## One round -/

/-- What a member depends on is done when it is dispatched. -/
theorem member_dependencies (hsound : Sound document log) {task : Task}
    (h : task ∈ batchAt selects document concurrency log) :
    ∀ dep ∈ task.dependsOn, DoneAt log dep := by
  obtain ⟨htask, hready⟩ := mem_selectBatch h
  rcases ready_iff.mp hready with hrunning | ⟨-, hdone⟩
  · refine hsound.dependencies task htask ?_
    rw [hrunning]
    decide
  · exact hdone

/-- A task that is done is not dispatched again. -/
theorem not_member_of_done {id : TaskId} (h : DoneAt log id) :
    id ∉ (batchAt selects document concurrency log).map (·.id) := by
  intro hmem
  obtain ⟨task, htask, rfl⟩ := List.mem_map.mp hmem
  rcases ready_iff.mp (mem_selectBatch htask).2 with hstatus | ⟨hstatus, -⟩ <;>
    rw [DoneAt, hstatus] at h <;> cases h

/-- A task of the document outside a batch has no id of it. -/
theorem not_mem_ids (hdeclared : document.DeclaredOnce) {task : Task}
    (htask : task ∈ document.tasks) (h : task ∉ batchAt selects document concurrency log) :
    task.id ∉ (batchAt selects document concurrency log).map (·.id) := by
  intro hmem
  obtain ⟨other, hother, hid⟩ := List.mem_map.mp hmem
  rw [TasksFile.eq_of_id hdeclared (mem_selectBatch hother).1 htask hid] at hother
  exact h hother

/-- A cut of a log the replay takes is taken. -/
theorem accepted_take (h : Accepted (log ++ events)) (k : Nat) :
    Accepted (log ++ events.take k) := by
  rw [← List.take_append_drop k events, ← List.append_assoc] at h
  exact accepted_of_append h

/-- A task outside the batch stands where it stood, wherever the round is cut. -/
theorem Worked.stands {batch : List Task} (h : Worked log batch events) {id : TaskId}
    (hid : id ∉ batch.map (·.id)) {stood : TaskStatus}
    (hstood : (derive log).tasks.status id = some stood) (k : Nat) :
    (derive (log ++ events.take k)).tasks.status id = some stood := by
  have hmoves : moves id (events.take k) = [] := by
    have := moves_take id events k
    rw [h.others id hid] at this
    exact List.prefix_nil.mp this
  rw [status_append (accepted_take h.accepted k) hstood, hmoves]
  rfl

/-- A member stands where it stood, or it is running, or done. -/
theorem Worked.member {batch : List Task} (h : Worked log batch events) {task : Task}
    (htask : task ∈ batch) {stood : TaskStatus}
    (hstood : (derive log).tasks.status task.id = some stood) (k : Nat) :
    (derive (log ++ events.take k)).tasks.status task.id = some stood ∨
      (derive (log ++ events.take k)).tasks.status task.id = some .running ∨
        DoneAt (log ++ events.take k) task.id := by
  have hmoves := moves_take task.id events k
  rw [h.members task htask] at hmoves
  have hafter := status_append (accepted_take h.accepted k) hstood
  simp only [List.prefix_cons_iff, List.prefix_nil] at hmoves
  rcases hmoves with hnone | ⟨t, hsome, rfl | ⟨t, rfl, rfl⟩⟩
  · rw [hnone] at hafter
    exact .inl hafter
  · rw [hsome] at hafter
    exact .inr (.inl hafter)
  · rw [hsome] at hafter
    exact .inr (.inr hafter)

/-- **A member is done when its round is over.** -/
theorem Worked.done {batch : List Task} (h : Worked log batch events) {task : Task}
    (htask : task ∈ batch) {stood : TaskStatus}
    (hstood : (derive log).tasks.status task.id = some stood) :
    DoneAt (log ++ events) task.id := by
  rw [DoneAt, status_append h.accepted hstood, h.members task htask]
  rfl

/-- What is done stays done. -/
theorem done_stays (h : Worked log (batchAt selects document concurrency log) events) {id : TaskId}
    (hdone : DoneAt log id) (k : Nat) : DoneAt (log ++ events.take k) id :=
  h.stands (not_member_of_done hdone) hdone k

/-- **A round cut anywhere leaves a sound log.** -/
theorem Sound.cut (hdeclared : document.DeclaredOnce) (hsound : Sound document log)
    (h : Worked log (batchAt selects document concurrency log) events) (k : Nat) :
    Sound document (log ++ events.take k) where
  accepted := accepted_take h.accepted k
  standing task htask := by
    by_cases hmem : task ∈ batchAt selects document concurrency log
    · rcases hsound.standing task htask with hstood | hstood | hstood
      · exact h.member hmem hstood k
      · exact (h.member hmem hstood k).elim (fun h => .inr (.inl h)) .inr
      · exact .inr (.inr (done_stays h hstood k))
    · have hid := not_mem_ids hdeclared htask hmem
      rcases hsound.standing task htask with hstood | hstood | hstood
      · exact .inl (h.stands hid hstood k)
      · exact .inr (.inl (h.stands hid hstood k))
      · exact .inr (.inr (h.stands hid hstood k))
  dependencies task htask hnot dep hdep := by
    refine done_stays h ?_ k
    by_cases hmem : task ∈ batchAt selects document concurrency log
    · exact member_dependencies hsound hmem dep hdep
    · refine hsound.dependencies task htask (fun hpending => hnot ?_) dep hdep
      exact h.stands (not_mem_ids hdeclared htask hmem) hpending k

/-- A whole round leaves a sound log. -/
theorem Sound.round (hdeclared : document.DeclaredOnce) (hsound : Sound document log)
    (h : Worked log (batchAt selects document concurrency log) events) :
    Sound document (log ++ events) := by
  have := hsound.cut hdeclared h events.length
  rwa [List.take_length] at this

/-- Where a sound log leaves a task of the document. -/
theorem Sound.stood (hsound : Sound document log) {task : Task} (htask : task ∈ document.tasks) :
    ∃ stood, (derive log).tasks.status task.id = some stood := by
  rcases hsound.standing task htask with h | h | h <;> exact ⟨_, h⟩

/-! ## A run of rounds -/

/-- What is done when a run starts is done when it ends. -/
theorem Rounds.done_stays (h : Rounds selects document concurrency log rounds last) {id : TaskId}
    (hdone : DoneAt log id) : DoneAt last id := by
  induction h with
  | stop log => exact hdone
  | @round log events last rounds hne hworked rest ih =>
    refine ih ?_
    have := Loop.done_stays hworked hdone events.length
    rwa [List.take_length] at this

/-- **Every state a run selects from is sound**, and so is the one it ends in. -/
theorem Rounds.sound (hdeclared : document.DeclaredOnce)
    (h : Rounds selects document concurrency log rounds last) (hsound : Sound document log) :
    Sound document last ∧ ∀ at_ ∈ rounds, Sound document at_ ∧
      batchAt selects document concurrency at_ ≠ [] := by
  induction h with
  | stop log => exact ⟨hsound, fun at_ hat => absurd hat List.not_mem_nil⟩
  | @round log events last rounds hne hworked rest ih =>
    obtain ⟨hlast, hrounds⟩ := ih (hsound.round hdeclared hworked)
    refine ⟨hlast, fun at_ hat => ?_⟩
    rcases List.mem_cons.mp hat with rfl | hat
    · exact ⟨hsound, hne⟩
    · exact hrounds at_ hat

/-- What a run dispatches was open when it started, and is done when it ends. -/
theorem Rounds.opened (hdeclared : document.DeclaredOnce)
    (h : Rounds selects document concurrency log rounds last) (hsound : Sound document log)
    {task : Task} (htask : task ∈ dispatched selects document concurrency rounds) :
    task ∈ document.tasks ∧ ¬ DoneAt log task.id ∧ DoneAt last task.id := by
  induction h with
  | stop log => exact absurd htask List.not_mem_nil
  | @round log events last rounds hne hworked rest ih =>
    rw [dispatched, List.flatMap_cons, List.mem_append] at htask
    rcases htask with hmem | hlater
    · have hdoc := (mem_selectBatch hmem).1
      obtain ⟨stood, hstood⟩ := hsound.stood hdoc
      exact ⟨hdoc, fun hdone => not_member_of_done hdone (List.mem_map_of_mem hmem),
        rest.done_stays (hworked.done hmem hstood)⟩
    · obtain ⟨hdoc, hopen, hlast⟩ := ih (hsound.round hdeclared hworked) hlater
      refine ⟨hdoc, fun hdone => hopen ?_, hlast⟩
      have := Loop.done_stays hworked hdone events.length
      rwa [List.take_length] at this

/-- **No task is dispatched twice.** -/
theorem Rounds.once (hdeclared : document.DeclaredOnce)
    (h : Rounds selects document concurrency log rounds last) (hsound : Sound document log) :
    (dispatched selects document concurrency rounds).Nodup := by
  induction h with
  | stop log => exact List.nodup_nil
  | @round log events last rounds hne hworked rest ih =>
    have hnext := hsound.round hdeclared hworked
    rw [dispatched, List.flatMap_cons, List.nodup_append']
    refine ⟨selectBatch_sublist.nodup (List.Nodup.of_map _ hdeclared), ih hnext, ?_⟩
    intro task hmem hlater
    obtain ⟨stood, hstood⟩ := hsound.stood (mem_selectBatch hmem).1
    exact (rest.opened hdeclared hnext hlater).2.1 (hworked.done hmem hstood)

/-- A task a run took from open to done was dispatched in it. -/
theorem Rounds.all (hdeclared : document.DeclaredOnce)
    (h : Rounds selects document concurrency log rounds last) (hsound : Sound document log)
    {task : Task} (htask : task ∈ document.tasks) (hopen : ¬ DoneAt log task.id)
    (hdone : DoneAt last task.id) : task ∈ dispatched selects document concurrency rounds := by
  induction h with
  | stop log => exact absurd hdone hopen
  | @round log events last rounds hne hworked rest ih =>
    rw [dispatched, List.flatMap_cons, List.mem_append]
    by_cases hmem : task ∈ batchAt selects document concurrency log
    · exact .inl hmem
    · refine .inr (ih (hsound.round hdeclared hworked) (fun hafter => hopen ?_) hdone)
      obtain ⟨stood, hstood⟩ := hsound.stood htask
      have hstands := hworked.stands (not_mem_ids hdeclared htask hmem) hstood events.length
      rw [List.take_length] at hstands
      rw [DoneAt, hstands] at hafter
      rw [DoneAt, hstood, hafter]

/-- The tasks a log leaves open. -/
def openAt (document : TasksFile) (log : List StoredEvent) : List Task :=
  document.tasks.filter fun task => ¬ DoneAt log task.id

/-- **A run has no more rounds than the plan has open tasks.** -/
theorem Rounds.length_le (hdeclared : document.DeclaredOnce)
    (h : Rounds selects document concurrency log rounds last) (hsound : Sound document log) :
    rounds.length ≤ (openAt document log).length := by
  have hle : rounds.length ≤ (dispatched selects document concurrency rounds).length := by
    have hrounds := (h.sound hdeclared hsound).2
    clear h hsound
    induction rounds with
    | nil => exact Nat.zero_le _
    | cons at_ rounds ih =>
      have hpos := List.length_pos_iff.mpr (hrounds at_ List.mem_cons_self).2
      have := ih fun at_ hat => hrounds at_ (List.mem_cons_of_mem _ hat)
      rw [dispatched, List.flatMap_cons, List.length_append, List.length_cons]
      rw [dispatched] at this
      omega
  refine hle.trans ((h.once hdeclared hsound).subperm ?_).length_le
  intro task htask
  obtain ⟨hdoc, hopen, -⟩ := h.opened hdeclared hsound htask
  exact List.mem_filter.mpr ⟨hdoc, by simpa using hopen⟩

/-! ## Cuts -/

theorem moves_append (id : TaskId) (events more : List StoredEvent) :
    moves id (events ++ more) = moves id events ++ moves id more := List.filterMap_append

/-- A round moves a task to running, to done, or nowhere. -/
theorem Worked.moved {batch : List Task} (h : Worked log batch events) (id : TaskId) (k : Nat) :
    ∀ status ∈ moves id (events.take k), status = .running ∨ status = .done := by
  intro status hstatus
  have hmem := (moves_take id events k).subset hstatus
  by_cases hid : id ∈ batch.map (·.id)
  · obtain ⟨task, htask, rfl⟩ := List.mem_map.mp hid
    rw [h.members task htask] at hmem
    simpa using hmem
  · rw [h.others id hid] at hmem
    exact absurd hmem List.not_mem_nil

theorem Rounds.extends (h : Rounds selects document concurrency log rounds last) :
    log <+: last := by
  induction h with
  | stop log => exact List.prefix_refl log
  | round hne hworked rest ih => exact (List.prefix_append _ _).trans ih

/-- **A run cut anywhere leaves a sound log**, in which no task was moved but to running or done. -/
theorem Rounds.cut (hdeclared : document.DeclaredOnce)
    (h : Rounds selects document concurrency log rounds last) (hsound : Sound document log) {n : Nat}
    (hn : log.length ≤ n) :
    Sound document (last.take n) ∧ ∃ more, last.take n = log ++ more ∧
      ∀ id, ∀ status ∈ moves id more, status = .running ∨ status = .done := by
  induction h with
  | stop log =>
    rw [List.take_of_length_le hn]
    exact ⟨hsound, [], (List.append_nil log).symm, fun id status h => absurd h List.not_mem_nil⟩
  | @round log events last rounds hne hworked rest ih =>
    rcases Nat.le_total n (log ++ events).length with hinside | hlater
    · -- the cut is inside this round
      obtain ⟨more, rfl⟩ := rest.extends
      have hcut : (log ++ events ++ more).take n = log ++ events.take (n - log.length) := by
        rw [List.take_append_of_le_length hinside, List.take_append, List.take_of_length_le hn]
      rw [hcut]
      exact ⟨hsound.cut hdeclared hworked _, _, rfl, fun id => hworked.moved id _⟩
    · obtain ⟨hcut, more, hmore, hmoved⟩ := ih (hsound.round hdeclared hworked) hlater
      refine ⟨hcut, events ++ more, by rw [hmore, List.append_assoc], fun id status hstatus => ?_⟩
      rw [moves_append, List.mem_append] at hstatus
      rcases hstatus with hstatus | hstatus
      · refine hworked.moved id events.length status ?_
        rwa [List.take_length]
      · exact hmoved id status hstatus

/-- **What is dispatched from a cut log was left running, or never started.** -/
theorem Rounds.redispatched (hdeclared : document.DeclaredOnce)
    (h : Rounds selects document concurrency log rounds last) (hsound : Sound document log) (n : Nat)
    {task : Task} (htask : task ∈ batchAt selects document concurrency (last.take n)) :
    (derive (last.take n)).tasks.status task.id = some .running ∨
      (derive (last.take n)).tasks.status task.id = some .pending ∧
        moves task.id ((last.take n).drop log.length) = [] := by
  obtain ⟨hdoc, hready⟩ := mem_selectBatch htask
  rcases ready_iff.mp hready with hrunning | ⟨hpending, -⟩
  · exact .inl hrunning
  refine .inr ⟨hpending, ?_⟩
  rcases Nat.le_total log.length n with hn | hn
  · obtain ⟨hcut, more, hmore, hmoved⟩ := h.cut hdeclared hsound hn
    have hacc := hcut.accepted
    rw [hmore] at hpending hacc ⊢
    rw [List.drop_left]
    by_contra hne
    obtain ⟨stood, hstood⟩ := hsound.stood hdoc
    have hlast := status_append hacc hstood
    rw [hpending, List.getLast?_eq_some_getLast hne] at hlast
    rcases hmoved task.id _ (List.getLast_mem hne) with h | h <;> rw [h] at hlast <;> cases hlast
  · -- the cut is in what the run started from
    rw [List.drop_eq_nil_of_le (by rw [List.length_take]; omega)]
    rfl

/-! ## A run to the end -/

/-- Status changes of registered tasks are all taken. -/
theorem emitAll_accepted (log : RunLog) (node : NodeId) {changes : List TaskStatusChangedPayload}
    {events : List StoredEvent} (h : Accepted events)
    (hreg : ∀ p ∈ changes, ∃ stood, (derive events).tasks.status p.taskId = some stood) :
    Accepted (emitAll log node events changes) := by
  induction changes generalizing events with
  | nil => exact h
  | cons p changes ih =>
    have hcontains : (derive events).tasks.contains p.taskId = true := by
      obtain ⟨stood, hstood⟩ := hreg p List.mem_cons_self
      obtain ⟨r, hr, -⟩ := Option.map_eq_some_iff.mp hstood
      exact ((derive events).tasks.contains_iff _).mpr ⟨r, hr⟩
    have hnext := (derive_task h
      (log.next events (some node) (.tasks (.statusChanged p))) rfl (fun task htask => by
        obtain rfl : p.taskId = task := by simpa [taskNamed] using htask
        exact hcontains)).1
    refine ih hnext fun q hq => ?_
    obtain ⟨stood, hstood⟩ := hreg q (List.mem_cons_of_mem _ hq)
    exact ⟨_, status_append hnext hstood⟩

/-- What status changes on a log move a task to. -/
theorem moves_of_changes (id : TaskId) {events : List StoredEvent}
    {changes : List TaskStatusChangedPayload}
    (h : events.map (·.payload) = changes.map fun p => some (.tasks (.statusChanged p))) :
    moves id events =
      changes.filterMap fun p => if p.taskId = id then some p.newStatus else none := by
  induction changes generalizing events with
  | nil =>
    rw [List.map_nil, List.map_eq_nil_iff] at h
    rw [h]
    rfl
  | cons p changes ih =>
    cases events with
    | nil => cases h
    | cons event events =>
      obtain ⟨hhead, htail⟩ := List.cons.inj h
      have hmove : move id event = if p.taskId = id then some p.newStatus else none := by
        simp only [move, hhead, moveOf]
      rw [moves, List.filterMap_cons, List.filterMap_cons, hmove, ← ih htail]
      rfl

/-- A batch marked with one status moves each member once. -/
theorem marked_once {batch : List Task} (hnodup : (batch.map (·.id)).Nodup) (status : TaskStatus)
    (id : TaskId) :
    (batch.map fun task => TaskStatusChangedPayload.to task.id status 0).filterMap
        (fun p => if p.taskId = id then some p.newStatus else none) =
      if id ∈ batch.map (·.id) then [status] else [] := by
  induction batch with
  | nil => rfl
  | cons task batch ih =>
    obtain ⟨hnot, hrest⟩ := List.nodup_cons.mp hnodup
    rw [List.map_cons, List.filterMap_cons, ih hrest]
    by_cases hid : task.id = id
    · subst hid
      simp [TaskStatusChangedPayload.to, hnot]
    · simp [TaskStatusChangedPayload.to, hid, Ne.symm hid]

/-- **Any batch can be worked.** -/
theorem worked_exists (selects : ScopeGlob → String → Bool) (concurrency : Option Nat)
    (hdeclared : document.DeclaredOnce) (hsound : Sound document log) :
    ∃ events, Worked log (batchAt selects document concurrency log) events := by
  let batch := batchAt selects document concurrency log
  let mark (status : TaskStatus) := batch.map fun task => TaskStatusChangedPayload.to task.id status 0
  obtain ⟨events, hevents, -, hpayloads⟩ :=
    emitAll_since {} "" log (mark .running ++ mark .done)
  have hnodup : (batch.map (·.id)).Nodup := (selectBatch_sublist.map _).nodup hdeclared
  have hmoves : ∀ id, moves id events =
      if id ∈ batch.map (·.id) then [.running, .done] else [] := by
    intro id
    rw [moves_of_changes id hpayloads, List.filterMap_append, marked_once hnodup,
      marked_once hnodup]
    split <;> rfl
  refine ⟨events, ?_, fun task htask => ?_, fun id hid => ?_⟩
  · rw [← hevents]
    refine emitAll_accepted {} "" hsound.accepted fun p hp => ?_
    have hp' : ∃ task ∈ batch, p.taskId = task.id := by
      rcases List.mem_append.mp hp with h | h <;> obtain ⟨task, htask, rfl⟩ := List.mem_map.mp h <;>
        exact ⟨task, htask, rfl⟩
    obtain ⟨task, htask, hid⟩ := hp'
    rw [hid]
    exact hsound.stood (mem_selectBatch htask).1
  · rw [hmoves, if_pos (List.mem_map_of_mem htask)]
  · rw [hmoves, if_neg hid]

/-- A loop that is never out of work runs as many rounds as one asks for, or to its end. -/
theorem rounds_exist (selects : ScopeGlob → String → Bool) (concurrency : Option Nat)
    (hdeclared : document.DeclaredOnce) (hsound : Sound document log) (k : Nat) :
    ∃ rounds last, Rounds selects document concurrency log rounds last ∧
      (batchAt selects document concurrency last = [] ∨ rounds.length = k) := by
  induction k generalizing log with
  | zero => exact ⟨[], log, .stop log, .inr rfl⟩
  | succ k ih =>
    by_cases hne : batchAt selects document concurrency log = []
    · exact ⟨[], log, .stop log, .inl hne⟩
    · obtain ⟨events, hworked⟩ := worked_exists selects concurrency hdeclared hsound
      obtain ⟨rounds, last, hrounds, hend⟩ := ih (hsound.round hdeclared hworked)
      exact ⟨log :: rounds, last, .round hne hworked hrounds, hend.imp_right (congrArg (· + 1))⟩

/-! ## Main result -/

/-- What a run of rounds from `log` to `last` does with a plan. -/
structure WorksThrough (selects : ScopeGlob → String → Bool) (document : TasksFile)
    (concurrency : Option Nat) (log : List StoredEvent) (rounds : List (List StoredEvent))
    (last : List StoredEvent) : Prop where
  /-- Every batch stands in declaration order, within the concurrency. -/
  batches : ∀ at_ ∈ rounds,
    (batchAt selects document concurrency at_).Sublist document.tasks ∧
      batchAt selects document concurrency at_ ≠ [] ∧
      (batchAt selects document concurrency at_).length ≤ max 1 (concurrency.getD 1)
  /-- A task is dispatched after all it depends on is done. -/
  dependencies : ∀ at_ ∈ rounds, ∀ task ∈ batchAt selects document concurrency at_,
    ∀ dep ∈ task.dependsOn, DoneAt at_ dep
  /-- While a task is left, there is a batch. -/
  goesOn : (∃ task ∈ document.tasks, ¬ DoneAt last task.id) →
    batchAt selects document concurrency last ≠ []
  bounded : rounds.length ≤ (openAt document log).length
  once : (dispatched selects document concurrency rounds).Nodup
  /-- Once every task is done, those that were open were dispatched, and no others. -/
  all : (∀ task ∈ document.tasks, DoneAt last task.id) →
    ∀ task, task ∈ dispatched selects document concurrency rounds ↔ task ∈ openAt document log
  /-- A cut log goes on: it is sound where the cut is in the rounds. -/
  cut : ∀ n, log.length ≤ n → Sound document (last.take n)
  redispatched : ∀ n, ∀ task ∈ batchAt selects document concurrency (last.take n),
    (derive (last.take n)).tasks.status task.id = some .running ∨
      (derive (last.take n)).tasks.status task.id = some .pending ∧
        moves task.id ((last.take n).drop log.length) = []

theorem Rounds.worksThrough (hdeclared : document.DeclaredOnce)
    (hknown : document.DependenciesDeclared) (hacyclic : document.Acyclic)
    (hsound : Sound document log) (h : Rounds selects document concurrency log rounds last) :
    WorksThrough selects document concurrency log rounds last := by
  obtain ⟨hlast, hrounds⟩ := h.sound hdeclared hsound
  refine ⟨fun at_ hat => ?_, fun at_ hat task htask => ?_, ?_, h.length_le hdeclared hsound,
    h.once hdeclared hsound, fun hdone task => ⟨fun htask => ?_, fun htask => ?_⟩,
    fun n hn => (h.cut hdeclared hsound hn).1, fun n task => h.redispatched hdeclared hsound n⟩
  · refine ⟨selectBatch_sublist, (hrounds at_ hat).2, ?_⟩
    rw [Nat.max_comm]
    exact selectBatch_length
  · exact member_dependencies (hrounds at_ hat).1 htask
  · rintro ⟨task, htask, hopen⟩
    exact selectBatch_ne_nil hknown hacyclic (by unfold concurrencyOf; omega) hlast.standing htask
      hopen
  · obtain ⟨hdoc, hopen, -⟩ := h.opened hdeclared hsound htask
    exact List.mem_filter.mpr ⟨hdoc, by simpa using hopen⟩
  · obtain ⟨hdoc, hopen⟩ := List.mem_filter.mp htask
    exact h.all hdeclared hsound hdoc (by simpa using hopen) (hdone task hdoc)

/-- **A loop works a plan through in dependency order.**  Every run of rounds does, some run ends
    with every task done, and no two members of a batch select a common path where overlap misses
    no pair the ready tasks reach. -/
theorem works_through (hglob : Globset selects) (hdeclared : document.DeclaredOnce)
    (hknown : document.DependenciesDeclared) (hacyclic : document.Acyclic)
    (concurrency : Option Nat) (hsound : Sound document log) :
    (∀ rounds last, Rounds selects document concurrency log rounds last →
      WorksThrough selects document concurrency log rounds last ∧
        ∀ at_ ∈ rounds, NoneMissed document (derive at_) →
          (batchAt selects document concurrency at_).Pairwise (Apart selects (derive at_))) ∧
      ∃ rounds last, Rounds selects document concurrency log rounds last ∧
        ∀ task ∈ document.tasks, DoneAt last task.id := by
  refine ⟨fun rounds last h => ⟨h.worksThrough hdeclared hknown hacyclic hsound,
    fun at_ _ => selectBatch_apart hglob hdeclared⟩, ?_⟩
  -- a run of more rounds than there are open tasks has to end first
  obtain ⟨rounds, last, h, hend⟩ := rounds_exist selects concurrency hdeclared hsound
    ((openAt document log).length + 1)
  refine ⟨rounds, last, h, fun task htask => ?_⟩
  have hworks := h.worksThrough hdeclared hknown hacyclic hsound
  by_contra hopen
  rcases hend with hnil | hlong
  · exact hworks.goesOn ⟨task, htask, hopen⟩ hnil
  · have := hworks.bounded
    omega

/-- Two tasks, the second on the first. -/
def chainPlan : TasksFile :=
  { tasks :=
      [{ id := "a", scope := ["src/**"], criteria := [] },
        { id := "b", scope := ["docs/**"], criteria := [], dependsOn := ["a"] }] }

/-- A plan registered, and nothing of it started. -/
def planned (document : TasksFile) : List StoredEvent :=
  register {} [] (some "plan") document .fresh

theorem works_through_chain :
    (∀ rounds last, Rounds plainSelects chainPlan (some 2) (planned chainPlan) rounds last →
      WorksThrough plainSelects chainPlan (some 2) (planned chainPlan) rounds last ∧
        ∀ at_ ∈ rounds, NoneMissed chainPlan (derive at_) →
          (batchAt plainSelects chainPlan (some 2) at_).Pairwise
            (Apart plainSelects (derive at_))) ∧
      ∃ rounds last, Rounds plainSelects chainPlan (some 2) (planned chainPlan) rounds last ∧
        ∀ task ∈ chainPlan.tasks, DoneAt last task.id :=
  works_through plainSelects_globset (by decide) (by decide)
    (TasksFile.acyclic_of_rank (fun id => if id = "b" then 1 else 0) (by decide)) (some 2)
    (.of_pending (by decide +kernel) (by decide +kernel))

/-- Two tasks apart, one of them on every path. -/
def everywherePlan : TasksFile :=
  { tasks :=
      [{ id := "a", scope := ["**/"], criteria := [] },
        { id := "b", scope := ["src/*.rs"], criteria := [] }] }

/-- The two tasks share a batch, and both may write `src/lib.rs`. -/
theorem not_works_through :
    ¬ ∀ (selects : ScopeGlob → String → Bool) (document : TasksFile) (concurrency : Option Nat)
      (log : List StoredEvent), Globset selects → document.DeclaredOnce →
      document.DependenciesDeclared → document.Acyclic → Sound document log →
      ∀ rounds last, Rounds selects document concurrency log rounds last →
        WorksThrough selects document concurrency log rounds last ∧
          ∀ at_ ∈ rounds, (batchAt selects document concurrency at_).Pairwise
            (Apart selects (derive at_)) := by
  intro h
  have hsound : Sound everywherePlan (planned everywherePlan) :=
    .of_pending (by decide +kernel) (by decide +kernel)
  have hbatch : batchAt plainSelects everywherePlan (some 2) (planned everywherePlan) =
      everywherePlan.tasks := by decide +kernel
  obtain ⟨events, hworked⟩ := worked_exists plainSelects (some 2)
    (show everywherePlan.DeclaredOnce by decide) hsound
  have hapart := (h plainSelects everywherePlan (some 2) (planned everywherePlan)
    plainSelects_globset (by decide) (by decide) (TasksFile.acyclic_of_rank (fun _ => 0) (by decide))
    hsound _ _ (.round (by rw [hbatch]; decide) hworked (.stop _))).2 _ List.mem_cons_self
  rw [hbatch] at hapart
  have hpair := (List.pairwise_cons.mp hapart).1 _ List.mem_cons_self
  exact hpair "**/" (by decide +kernel) "src/*.rs" (by decide +kernel) "src/lib.rs"
    ⟨by decide +kernel, by decide +kernel⟩

end Yunta.Loop
