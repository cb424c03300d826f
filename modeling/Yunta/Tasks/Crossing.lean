/-
  What a run's log leaves done for the run that takes its document over, and what of that the
  receiving tree already has.

  1. **Standing** — `standingOf` reads of a source log which tasks it leaves done, by id, and the
     commit the last `done` of each named; `carriedInto` keeps the ones of a document whose commit
     is in the receiving tree.

  2. **Going done** — `WentDone` says under which registration a task last went done, and at which
     commit.

  3. **What a registration states** — the only tasks `register` moves to done are the carried ones
     (`register_dones`).
-/
import Yunta.Tasks.Registration

set_option linter.unusedVariables false

namespace Yunta.Crossing

/-! ## Standing -/

/-- The task an event moves to done, and the commit it names. -/
def doneOf (event : StoredEvent) : Option (TaskId × Option CommitSha) :=
  match event.payload with
  | some (.tasks (.statusChanged p)) =>
    if p.newStatus = .done then some (p.taskId, p.commit) else none
  | _ => none

/-- Where each `done` put the work, as the log last said it. -/
def placed (events : List StoredEvent) : OrdMap TaskId (Option CommitSha) :=
  (events.filterMap doneOf).foldl (fun placed kv => placed.insert kv.1 kv.2) ∅

/-- What a source run's log leaves standing about the tasks it was given: every task it leaves
    done, with the commit that `done` named. -/
structure Standing where
  done : OrdMap TaskId (Option CommitSha)

/-- The state another run's log leaves standing.  A log that does not replay is refused. -/
def standingOf (run : RunId) (events : List StoredEvent) : Except String Standing :=
  let state := derive events
  match state.broken with
  | some diagnostic =>
    .error ("run " ++ run ++ " hands over a tasks document, and its own log does not replay: " ++
      diagnostic)
  | none =>
    .ok { done := state.tasks.perTask.filterMap fun id record =>
      if record.status = .done then some (placed events)[id]?.join else none }

/-- The tree a receiving run works in, as git answers about it. -/
structure Tree where
  head : Except String CommitSha
  /-- Whether the repository has the commit and the head descends from it. -/
  hasCommit : CommitSha → CommitSha → Except String Bool

/-- The tasks of `document` whose work `tree` already has: the ones the source left done at a
    commit its head descends from. -/
def carriedInto (standing : Standing) (document : TasksFile) (tree : Tree) :
    Except String (OrdMap TaskId CommitSha) :=
  let placed := document.tasks.filterMap fun task =>
    match standing.done[task.id]? with
    | some (some commit) => some (task.id, commit)
    | _ => none
  if placed.isEmpty then .ok ∅
  else
    match tree.head with
    | .error report => .error report
    | .ok head =>
      placed.foldlM (fun carried kv =>
        (tree.hasCommit kv.2 head).map fun inTree =>
          if inTree then carried.insert kv.1 kv.2 else carried) ∅

/-- What stands is done in the log, at the commit its last `done` named. -/
theorem standingOf_spec {run : RunId} {events : List StoredEvent} {standing : Standing}
    (h : standingOf run events = .ok standing) :
    Accepted events ∧ ∀ id commit, standing.done[id]? = some commit →
      (derive events).tasks.status id = some .done ∧ (placed events)[id]?.join = commit := by
  unfold standingOf at h
  simp only at h
  split at h
  · cases h
  · next hbroken =>
    cases h
    refine ⟨hbroken, ?_⟩
    intro id commit hdone
    rw [Std.ExtTreeMap.getElem?_filterMap'] at hdone
    obtain ⟨record, hrecord, hcommit⟩ := Option.bind_eq_some_iff.mp hdone
    split at hcommit
    · next hstatus =>
      refine ⟨?_, Option.some.inj hcommit⟩
      rw [TaskLedger.status, TaskLedger.get, hrecord, Option.map_some, hstatus]
    · cases hcommit

/-- What crosses stands done in the source, and is a task of the document. -/
theorem carriedInto_spec {standing : Standing} {document : TasksFile} {tree : Tree}
    {carried : OrdMap TaskId CommitSha} (h : carriedInto standing document tree = .ok carried)
    {id : TaskId} {commit : CommitSha} (hid : carried[id]? = some commit) :
    standing.done[id]? = some (some commit) := by
  have hplaced : ∀ kv ∈ document.tasks.filterMap (fun task =>
      match standing.done[task.id]? with
      | some (some commit) => some (task.id, commit)
      | _ => none), standing.done[kv.1]? = some (some kv.2) := by
    intro kv hkv
    obtain ⟨task, -, htask⟩ := List.mem_filterMap.mp hkv
    split at htask
    · next hdone =>
      cases htask
      exact hdone
    · cases htask
  -- what the walk carries so far stands done
  have hwalk : ∀ (placed : List (TaskId × CommitSha)) (head : CommitSha)
      (before after : OrdMap TaskId CommitSha),
      (∀ kv ∈ placed, standing.done[kv.1]? = some (some kv.2)) →
      (∀ (id : TaskId) (commit : CommitSha), before[id]? = some commit →
        standing.done[id]? = some (some commit)) →
      placed.foldlM (fun carried kv =>
        (tree.hasCommit kv.2 head).map fun inTree =>
          if inTree then carried.insert kv.1 kv.2 else carried) before = Except.ok after →
      ∀ (id : TaskId) (commit : CommitSha), after[id]? = some commit →
        standing.done[id]? = some (some commit) := by
    intro placed head
    induction placed with
    | nil =>
      intro before after _ hbefore hafter
      cases hafter
      exact hbefore
    | cons kv placed ih =>
      intro before after hstands hbefore hafter
      rw [List.foldlM_cons] at hafter
      cases hasked : tree.hasCommit kv.2 head with
      | error report =>
        rw [hasked] at hafter
        cases hafter
      | ok inTree =>
        rw [hasked] at hafter
        refine ih _ after (fun other hother => hstands other (List.mem_cons_of_mem _ hother)) ?_
          hafter
        intro id commit hid
        cases inTree with
        | false => exact hbefore id commit hid
        | true =>
          have hinsert : (before.insert kv.1 kv.2)[id]? = some commit := hid
          rw [OrdMap.getElem?_insert_eq] at hinsert
          split at hinsert
          · next heq =>
            cases hinsert
            rw [← heq]
            exact hstands kv List.mem_cons_self
          · exact hbefore id commit hinsert
  unfold carriedInto at h
  simp only at h
  split at h
  · cases h
    simp at hid
  · split at h
    · cases h
    · exact hwalk _ _ _ _ hplaced (by simp) h id commit hid

/-! ## Going done -/

/-- `id` last went done at `commit`, and the registration in force then was `identity`. -/
def WentDone (log : List StoredEvent) (id : TaskId) (identity : Identity)
    (commit : Option CommitSha) : Prop :=
  ∃ before event after, log = before ++ event :: after ∧ doneOf event = some (id, commit) ∧
    (∀ later ∈ after, ∀ other, doneOf later ≠ some (id, other)) ∧
    (priorRegistrations before)[id]? = some identity

theorem wentDone_snoc {log : List StoredEvent} {id : TaskId} {identity : Identity}
    {commit : Option CommitSha} {event : StoredEvent} (hdone : doneOf event = some (id, commit))
    (hprior : (priorRegistrations log)[id]? = some identity) :
    WentDone (log ++ [event]) id identity commit :=
  ⟨log, event, [], rfl, hdone, by simp, hprior⟩

/-- An event that moves another task to done, or none, leaves where a task went done. -/
theorem WentDone.snoc {log : List StoredEvent} {id : TaskId} {identity : Identity}
    {commit : Option CommitSha} (h : WentDone log id identity commit) {event : StoredEvent}
    (hother : ∀ other, doneOf event ≠ some (id, other)) :
    WentDone (log ++ [event]) id identity commit := by
  obtain ⟨before, done, after, rfl, hdone, hafter, hprior⟩ := h
  refine ⟨before, done, after ++ [event], by simp, hdone, ?_, hprior⟩
  intro later hlater
  rcases List.mem_append.mp hlater with hlater | hlater
  · exact hafter later hlater
  · rw [List.mem_singleton.mp hlater]
    exact hother

/-- **The commit a log places a task at** is the one it last went done at. -/
theorem WentDone.placed {log : List StoredEvent} {id : TaskId} {identity : Identity}
    {commit : Option CommitSha} (h : WentDone log id identity commit) :
    (placed log)[id]? = some commit := by
  obtain ⟨before, done, after, rfl, hdone, hafter, -⟩ := h
  have hkeeps : ∀ (after : List StoredEvent) (held : OrdMap TaskId (Option CommitSha)),
      (∀ later ∈ after, ∀ other, doneOf later ≠ some (id, other)) → held[id]? = some commit →
      ((after.filterMap doneOf).foldl (fun placed kv => placed.insert kv.1 kv.2) held)[id]? =
        some commit := by
    intro after
    induction after with
    | nil => exact fun held _ hheld => hheld
    | cons event after ih =>
      intro held hnone hheld
      have hrest : ∀ later ∈ after, ∀ other, doneOf later ≠ some (id, other) :=
        fun later hlater => hnone later (List.mem_cons_of_mem _ hlater)
      cases hevent : doneOf event with
      | none =>
        rw [List.filterMap_cons_none hevent]
        exact ih held hrest hheld
      | some kv =>
        rw [List.filterMap_cons_some hevent, List.foldl_cons]
        refine ih _ hrest ?_
        have hne : kv.1 ≠ id := by
          rintro rfl
          exact hnone event List.mem_cons_self kv.2 hevent
        rw [OrdMap.getElem?_insert_eq, if_neg hne, hheld]
  rw [Crossing.placed, List.filterMap_append, List.foldl_append, List.filterMap_cons_some hdone,
    List.foldl_cons]
  exact hkeeps after _ hafter (by simp)

/-! ## What a registration states -/

/-- Every task a plan moves to done is one of its entries, followed by that commit. -/
theorem recordAll_dones (log : RunLog) (node : Option NodeId) (plan : List Planned)
    (events : List StoredEvent) {event : StoredEvent}
    (hevent : event ∈ (plan.foldl (recordPlanned log node) events).drop events.length)
    {id : TaskId} {commit : Option CommitSha} (hdone : doneOf event = some (id, commit)) :
    ∃ planned ∈ plan, ∃ landed, planned.task.id = id ∧ planned.follow = some (.done landed) ∧
      commit = some landed := by
  induction plan generalizing events with
  | nil => simp at hevent
  | cons planned plan ih =>
    obtain ⟨more, hmore, -⟩ := recordAll_entries log node plan (recordPlanned log node events planned)
    rw [List.foldl_cons, hmore] at hevent
    have hrest : ∀ event ∈ more, event ∈ (plan.foldl (recordPlanned log node)
        (recordPlanned log node events planned)).drop
          (recordPlanned log node events planned).length := by
      intro event hmem
      rw [hmore, List.drop_left]
      exact hmem
    have hlater : event ∈ more → ∃ planned' ∈ planned :: plan, ∃ landed, planned'.task.id = id ∧
        planned'.follow = some (.done landed) ∧ commit = some landed := by
      intro hmem
      obtain ⟨planned', hplanned, hwritten⟩ := ih _ (hrest event hmem)
      exact ⟨planned', List.mem_cons_of_mem _ hplanned, hwritten⟩
    obtain ⟨task, follow⟩ := planned
    rcases follow with _ | _ | landed
    · have heq : recordPlanned log node events ⟨task, none⟩ =
          events ++ [log.next events node (.tasks (.registered (registrationOf task)))] := rfl
      rw [heq, List.append_assoc, List.drop_left] at hevent
      rcases List.mem_append.mp hevent with hfirst | hmem
      · obtain rfl := List.mem_singleton.mp hfirst
        cases hdone
      · exact hlater hmem
    · obtain ⟨first, heq⟩ : ∃ first, recordPlanned log node events ⟨task, some .reset⟩ =
          events ++ first ∧ ∀ event ∈ first, doneOf event = none := by
        refine ⟨_, List.append_assoc .., ?_⟩
        simp [doneOf, TaskStatusChangedPayload.to]
      rw [heq.1, List.append_assoc, List.drop_left] at hevent
      rcases List.mem_append.mp hevent with hfirst | hmem
      · rw [heq.2 event hfirst] at hdone
        cases hdone
      · exact hlater hmem
    · obtain ⟨first, heq⟩ : ∃ first, recordPlanned log node events ⟨task, some (.done landed)⟩ =
          events ++ first ∧ ∀ event ∈ first, ∀ kv, doneOf event = some kv →
            kv = (task.id, some landed) := by
        refine ⟨_, List.append_assoc .., ?_⟩
        simp [doneOf, TaskStatusChangedPayload.done]
      rw [heq.1, List.append_assoc, List.drop_left] at hevent
      rcases List.mem_append.mp hevent with hfirst | hmem
      · cases heq.2 event hfirst _ hdone
        exact ⟨_, List.mem_cons_self, landed, rfl, rfl, rfl⟩
      · exact hlater hmem

/-- **A registration moves to done only what was carried**: the task is one of the document's, and
    the commit is the one it was carried at. -/
theorem register_dones (log : RunLog) (events : List StoredEvent) (node : Option NodeId)
    (document : TasksFile) (provenance : Provenance) {event : StoredEvent}
    (hevent : event ∈ (register log events node document provenance).drop events.length)
    {id : TaskId} {commit : Option CommitSha} (hdone : doneOf event = some (id, commit)) :
    ∃ task ∈ document.tasks, task.id = id ∧ ∃ landed, commit = some landed ∧
      provenance.carried[id]? = some landed := by
  obtain ⟨planned, hplanned, landed, hid, hfollow, hcommit⟩ :=
    recordAll_dones log node _ events hevent hdone
  obtain ⟨task, htask, rfl⟩ := List.mem_map.mp hplanned
  refine ⟨task, htask, hid, landed, hcommit, ?_⟩
  have hcarried : ((provenance.carried[task.id]?).filter fun _ =>
      (derive events).tasks.status task.id ≠ some .done).map Follow.done = some (.done landed) := by
    have hfollow : followOf task (priorRegistrations events)[task.id]?
        ((derive events).tasks.status task.id) provenance.carried[task.id]? =
          some (.done landed) := hfollow
    unfold followOf at hfollow
    split at hfollow
    · cases hfollow
    · exact hfollow
  obtain ⟨commit', hfiltered, heq⟩ := Option.map_eq_some_iff.mp hcarried
  cases heq
  obtain ⟨hcommit', -⟩ := Option.filter_eq_some_iff.mp hfiltered
  rw [← hid]
  exact hcommit'

end Yunta.Crossing
