/-
  A refused event moves nothing, and an accepted one is taken whole.

  `apply` refuses twice: `refuse` before any ledger moves, and each owner's own fallible fold after
  others may have moved.  `applyOwners_ok` shows the second never fires: what `refuse` lets through
  satisfies the precondition of every owner (`TaskLedger.apply_ok`, `GrantLedger.apply_ok`, a node
  on a session fact, a question in every round asked).

  So a step has one shape, `apply_eq`: the state untouched beside an error, or `taken`.  The lemmas
  of the last section say what `taken` leaves in each ledger; every later invariant reads those and
  never unfolds `apply` again.
-/
import Yunta.Replay.State

set_option linter.unusedVariables false

namespace Yunta.RunState

/-! ## The up-front check reads the nodes and the tasks -/

theorem refuse_congr {s t : RunState} (hn : t.nodes = s.nodes) (ht : t.tasks = s.tasks)
    (event : StoredEvent) : t.refuse event = s.refuse event := by
  have hr : ∀ node, t.isRunning node = s.isRunning node := by
    intro node; simp only [isRunning, hn]
  have hw : ∀ node, t.isWaiting node = s.isWaiting node := by
    intro node; simp only [isWaiting, hn]
  unfold refuse refuseNode refuseTask refuseGate
  simp only [hr, hw, ht]

@[simp] theorem suspend_nodes (s : RunState) (event : StoredEvent) :
    (s.suspend event).nodes = s.nodes := by
  unfold suspend; split <;> rfl

@[simp] theorem suspend_tasks (s : RunState) (event : StoredEvent) :
    (s.suspend event).tasks = s.tasks := by
  unfold suspend; split <;> rfl

/-- Recording a suspension and booking the stretch move nothing the check reads. -/
theorem refuse_booked (s : RunState) (event : StoredEvent) :
    ((s.suspend event).book event).refuse event = s.refuse event :=
  refuse_congr (suspend_nodes s event) (suspend_tasks s event) event

/-! ## What the check lets through, the owners take -/

/-- A gate step fails only on a round naming no question, which the check refuses first. -/
theorem gateTransition_ok {s : RunState} {e : GateEvent} {event : StoredEvent}
    (h : s.refuseGate e event = .ok ()) : (s.gateTransition e event).2 = .ok () := by
  unfold gateTransition
  unfold refuseGate at h
  cases hnode : event.nodeId with
  | none => rfl
  | some node =>
    rw [hnode] at h
    cases e with
    | questionsAsked round =>
      cases hq : round.questions with
      | nil =>
        simp only [hq, List.isEmpty_nil, if_true] at h
        split at h <;> cases h
      | cons q rest => simp only [questionsAsked, hq]
    | _ => rfl

/-- A task event the check lets through names a registered task, if it has to name one. -/
theorem tasks_ok {s : RunState} {e : TaskEvent} {event : StoredEvent}
    (h : s.refuseTask e event = .ok ()) : (s.tasks.apply e event.meta_).2 = .ok () := by
  have hreg : ∀ task, taskNamed e = some task → s.tasks.contains task = true := by
    intro task htask
    unfold refuseTask at h
    rw [htask] at h
    by_contra hc
    simp only [hc] at h
    cases h
  refine TaskLedger.apply_ok event.meta_ ?_
  intro task htask
  refine hreg task ?_
  cases e <;> first | exact htask | cases htask

theorem scope_ok {s : RunState} {e : ScopeEvent} {event : StoredEvent}
    (h : refuseScope e event = .ok ()) : (s.grants.apply e event.meta_).2 = .ok () := by
  refine GrantLedger.apply_ok ?_
  unfold refuseScope at h
  split at h
  · next hsubject => simpa [Bool.or_eq_true] using hsubject
  · cases h

theorem session_ok {s : RunState} {e : SessionEvent} {event : StoredEvent}
    (h : refuseSession event = .ok ()) : (s.nodes.applySession e event.meta_).2 = .ok () := by
  unfold refuseSession at h
  unfold NodeLedger.applySession
  cases hnode : event.nodeId with
  | none => simp [hnode] at h
  | some node => simp [hnode]

/-- **No owner refuses what the up-front check accepts.** -/
theorem applyOwners_ok {s : RunState} {event : StoredEvent} (h : s.refuse event = .ok ()) :
    (s.applyOwners event).2 = .ok () := by
  unfold refuse at h
  unfold applyOwners
  cases hp : event.payload with
  | none => rfl
  | some payload =>
    rw [hp] at h
    cases payload with
    | session e =>
      have hok := session_ok (s := s) (e := e) h
      rcases hstep : s.nodes.applySession e event.meta_ with ⟨nodes, _ | _⟩
      · rw [hstep] at hok; cases hok
      · simp only [hstep]
    | tasks e =>
      have hok := tasks_ok h
      rcases hstep : s.tasks.apply e event.meta_ with ⟨tasks, _ | _⟩
      · rw [hstep] at hok; cases hok
      · simp only [hstep]
    | scope e =>
      have hok := scope_ok (s := s) h
      rcases hstep : s.grants.apply e event.meta_ with ⟨grants, _ | _⟩
      · rw [hstep] at hok; cases hok
      · simp only [hstep]
    | gates e =>
      have hok := gateTransition_ok h
      rcases hstep : s.gateTransition e event with ⟨t, _ | _⟩
      · rw [hstep] at hok; cases hok
      · simp only [hstep]
    | _ => rfl

/-! ## The one shape of a step -/

/-- The state an accepted event leaves. -/
def taken (s : RunState) (event : StoredEvent) : RunState :=
  { (((s.suspend event).book event).applyOwners event).1 with
    activity := (((s.suspend event).book event).applyOwners event).1.activity.apply event
    tailPaused := isPause event }

/-- **A step is a refusal or a whole application**: nothing lies between. -/
theorem apply_eq (s : RunState) (event : StoredEvent) :
    s.apply event =
      match s.refuse event with
      | .error err => (s, .error err)
      | .ok () => (s.taken event, .ok ()) := by
  unfold apply
  cases hr : s.refuse event with
  | error err => rfl
  | ok _ =>
    have hok := applyOwners_ok ((refuse_booked s event).trans hr)
    rcases hstep : ((s.suspend event).book event).applyOwners event with ⟨t, _ | _⟩
    · rw [hstep] at hok; cases hok
    · simp only [hstep, taken]

theorem apply_ok_iff {s s' : RunState} {event : StoredEvent} :
    s.apply event = (s', .ok ()) ↔ s.refuse event = .ok () ∧ s' = s.taken event := by
  rw [apply_eq]
  cases hr : s.refuse event with
  | error err => simp
  | ok _ => simp [eq_comm]

/-- **A refused event leaves the state intact**, and what the up-front check accepts no owner
    refuses. -/
theorem apply_atomic (s : RunState) (event : StoredEvent) :
    (∀ err, (s.apply event).2 = .error err → (s.apply event).1 = s) ∧
      (s.refuse event = .ok () → (s.apply event).2 = .ok ()) := by
  rw [apply_eq]
  cases hr : s.refuse event with
  | error err =>
    refine ⟨fun _ _ => rfl, ?_⟩
    intro h; cases h
  | ok _ =>
    refine ⟨?_, fun _ => rfl⟩
    intro err h; cases h

/-- A terminal without its start moves nothing of an empty run; a start is taken. -/
theorem apply_atomic_fresh :
    (apply {} ⟨"", 1, 0, some "a", .known (.node (.finished {}))⟩).1 = {} ∧
      (apply {} ⟨"", 1, 0, some "a", .known (.node (.started ⟨1, none, none⟩))⟩).2 = .ok () :=
  ⟨(apply_atomic {} _).1 (.finishedWithoutStart 1 "a") (by decide),
    (apply_atomic {} _).2 (by decide)⟩

/-! ## What a taken event leaves in each ledger -/

/-- What every taken event does, whatever its domain: its stretch is booked, it is counted, and
    the tail of the log is read again. -/
def counted (s : RunState) (event : StoredEvent) : RunState :=
  { s with
    clock := ((s.suspend event).book event).clock
    activity := s.activity.apply event
    tailPaused := isPause event }

/-- Whether a run event ends every question the run still holds. -/
def endsAsking : RunEvent → Bool
  | .paused _ | .resumed _ | .finished _ => true
  | _ => false

/-- A gate step moves the nodes and the states their waits interrupted, and nothing else. -/
theorem gateTransition_frame (s : RunState) (e : GateEvent) (event : StoredEvent) :
    ∃ nodes preGate,
      (s.gateTransition e event).1 = { s with nodes := nodes, preGate := preGate } := by
  refine ⟨(s.gateTransition e event).1.nodes, (s.gateTransition e event).1.preGate, ?_⟩
  unfold gateTransition
  cases event.nodeId with
  | none => rfl
  | some node =>
    cases e with
    | resolved p => cases hw : s.isWaiting node <;> simp only [hw] <;> rfl
    | questionsAsked round =>
      cases hq : round.questions with
      | nil => simp only [questionsAsked, hq]
      | cons q rest => simp only [questionsAsked, hq, park]
    | _ => rfl

/-- The facts of a state, beside another clock and another activity. -/
def withClock (s : RunState) (clock : Timeline) (activity : Activity) : RunState :=
  { s with clock := clock, activity := activity }

/-- A gate step reads neither the clock nor the activity. -/
theorem gateTransition_withClock (s : RunState) (clock : Timeline) (activity : Activity)
    (e : GateEvent) (event : StoredEvent) :
    (s.withClock clock activity).gateTransition e event =
      ((s.gateTransition e event).1.withClock clock activity, (s.gateTransition e event).2) := by
  unfold gateTransition
  cases event.nodeId with
  | none => rfl
  | some node =>
    cases e with
    | resolved p =>
      have hw : (s.withClock clock activity).isWaiting node = s.isWaiting node := rfl
      cases hs : s.isWaiting node <;> simp only [hw, hs] <;> rfl
    | questionsAsked round =>
      cases hq : round.questions with
      | nil => simp only [questionsAsked, hq]
      | cons q rest => simp only [questionsAsked, hq]; rfl
    | _ => rfl

/-- Only a recorded suspension moves a ledger before its stretch is booked. -/
theorem suspend_eq (s : RunState) (event : StoredEvent)
    (h : ∀ p, event.payload ≠ some (.run (.hostSuspended p))) :
    s.suspend event = s := by
  unfold suspend
  split
  · next p hp => exact absurd hp (h p)
  · rfl

section
variable {s : RunState} {event : StoredEvent}

theorem taken_unknown (hp : event.payload = none) :
    s.taken event =
      { s.counted event with
        unknownKinds := s.unknownKinds ++ [(event.seq, event.body.kindName)] } := by
  simp only [taken, applyOwners, hp, counted, suspend_eq s event (by simp [hp])]
  rfl

theorem taken_run {e : RunEvent} (hp : event.payload = some (.run e)) :
    s.taken event =
      { s.counted event with
        run := s.run.apply e event.meta_
        gates := if endsAsking e then s.gates.clearAsking else s.gates } := by
  simp only [taken, applyOwners, hp, counted]
  cases e <;> simp only [suspend, hp] <;> rfl

theorem taken_node {e : NodeEvent} (hp : event.payload = some (.node e)) :
    s.taken event =
      { s.counted event with
        nodes := s.nodes.apply e event.meta_ s.run.suspensions
        tasks := s.tasks.applyCriteria e } := by
  simp only [taken, applyOwners, hp, counted, suspend_eq s event (by simp [hp])]
  rfl

theorem taken_session {e : SessionEvent} (h : s.refuse event = .ok ())
    (hp : event.payload = some (.session e)) :
    s.taken event =
      { s.counted event with
        nodes := (s.nodes.applySession e event.meta_).1
        tasks := s.tasks.applySession e
        degradations := s.degradations.apply e event.meta_ } := by
  simp only [refuse, hp] at h
  have hstep : (s.book event).nodes.applySession e event.meta_ =
      ((s.nodes.applySession e event.meta_).1, .ok ()) := Prod.ext rfl (session_ok h)
  simp only [taken, applyOwners, hp, counted, suspend_eq s event (by simp [hp]),
    hstep]
  rfl

theorem taken_task {e : TaskEvent} (h : s.refuse event = .ok ())
    (hp : event.payload = some (.tasks e)) :
    s.taken event = { s.counted event with tasks := (s.tasks.apply e event.meta_).1 } := by
  simp only [refuse, hp] at h
  have hstep : (s.book event).tasks.apply e event.meta_ =
      ((s.tasks.apply e event.meta_).1, .ok ()) := Prod.ext rfl (tasks_ok h)
  simp only [taken, applyOwners, hp, counted, suspend_eq s event (by simp [hp]),
    hstep]
  rfl

theorem taken_scope {e : ScopeEvent} (h : s.refuse event = .ok ())
    (hp : event.payload = some (.scope e)) :
    s.taken event = { s.counted event with grants := (s.grants.apply e event.meta_).1 } := by
  simp only [refuse, hp] at h
  have hstep : (s.book event).grants.apply e event.meta_ =
      ((s.grants.apply e event.meta_).1, .ok ()) := Prod.ext rfl (scope_ok h)
  simp only [taken, applyOwners, hp, counted, suspend_eq s event (by simp [hp]),
    hstep]
  rfl

theorem taken_finding {e : FindingEvent} (hp : event.payload = some (.findings e)) :
    s.taken event = { s.counted event with findings := s.findings.apply event.nodeId e } := by
  simp only [taken, applyOwners, hp, counted, suspend_eq s event (by simp [hp])]
  rfl

theorem taken_artifact {e : ArtifactEvent} (hp : event.payload = some (.artifacts e)) :
    s.taken event =
      { s.counted event with artifacts := s.artifacts.apply event.nodeId event.seq e } := by
  simp only [taken, applyOwners, hp, counted, suspend_eq s event (by simp [hp])]
  rfl

/-- What a gate event does to the node it parks is the gate step's, read in the state before. -/
theorem taken_gate {e : GateEvent} (h : s.refuse event = .ok ())
    (hp : event.payload = some (.gates e)) :
    s.taken event =
      { s.counted event with
        nodes := (s.gateTransition e event).1.nodes
        preGate := (s.gateTransition e event).1.preGate
        gates := s.gates.apply e event.meta_ } := by
  simp only [refuse, hp] at h
  obtain ⟨nodes, preGate, hframe⟩ := gateTransition_frame s e event
  have hbook : (s.book event).gateTransition e event =
      ({ s.book event with nodes := nodes, preGate := preGate }, .ok ()) := by
    change (s.withClock (s.book event).clock s.activity).gateTransition e event = _
    rw [gateTransition_withClock, hframe, gateTransition_ok h]
    rfl
  simp only [taken, applyOwners, hp, counted, suspend_eq s event (by simp [hp]),
    hbook, hframe]
  rfl

theorem taken_child {e : ChildEvent} (hp : event.payload = some (.children e)) :
    s.taken event = { s.counted event with children := s.children.apply e event.meta_ } := by
  simp only [taken, applyOwners, hp, counted, suspend_eq s event (by simp [hp])]
  rfl

end

/-- Outside the ledgers, a step is what every taken event does; and no step marks the state
    broken: only the fold of a log does, at the event refused. -/
theorem taken_frame {s : RunState} {event : StoredEvent} (h : s.refuse event = .ok ()) :
    (s.taken event).clock = (s.counted event).clock ∧
      (s.taken event).tailPaused = isPause event ∧ (s.taken event).broken = s.broken := by
  cases hp : event.payload with
  | none => rw [taken_unknown hp]; exact ⟨rfl, rfl, rfl⟩
  | some payload =>
    cases payload with
    | run e => rw [taken_run hp]; exact ⟨rfl, rfl, rfl⟩
    | node e => rw [taken_node hp]; exact ⟨rfl, rfl, rfl⟩
    | session e => rw [taken_session h hp]; exact ⟨rfl, rfl, rfl⟩
    | tasks e => rw [taken_task h hp]; exact ⟨rfl, rfl, rfl⟩
    | scope e => rw [taken_scope h hp]; exact ⟨rfl, rfl, rfl⟩
    | findings e => rw [taken_finding hp]; exact ⟨rfl, rfl, rfl⟩
    | artifacts e => rw [taken_artifact hp]; exact ⟨rfl, rfl, rfl⟩
    | gates e => rw [taken_gate h hp]; exact ⟨rfl, rfl, rfl⟩
    | children e => rw [taken_child hp]; exact ⟨rfl, rfl, rfl⟩

/-- Only the run's own events move the run's ledger. -/
theorem taken_run_ledger {s : RunState} {event : StoredEvent} (h : s.refuse event = .ok ()) :
    (s.taken event).run =
      match event.payload with
      | some (.run e) => s.run.apply e event.meta_
      | _ => s.run := by
  cases hp : event.payload with
  | none => rw [taken_unknown hp]; rfl
  | some payload =>
    cases payload with
    | run e => rw [taken_run hp]
    | node e => rw [taken_node hp]; rfl
    | session e => rw [taken_session h hp]; rfl
    | tasks e => rw [taken_task h hp]; rfl
    | scope e => rw [taken_scope h hp]; rfl
    | findings e => rw [taken_finding hp]; rfl
    | artifacts e => rw [taken_artifact hp]; rfl
    | gates e => rw [taken_gate h hp]; rfl
    | children e => rw [taken_child hp]; rfl

/-! ## Accepted logs are runs -/

theorem deriveFrom_of_steps {s s' : RunState} {log : List StoredEvent} (h : RunSteps s log s') :
    deriveFrom s log = s' := by
  induction h with
  | nil s => rfl
  | cons he _ ih => simp only [deriveFrom, he, ih]

theorem steps_of_deriveFrom {s : RunState} {log : List StoredEvent} (hs : s.broken = none)
    (h : (deriveFrom s log).broken = none) : RunSteps s log (deriveFrom s log) := by
  induction log generalizing s with
  | nil => exact .nil s
  | cons event rest ih =>
    unfold deriveFrom at h ⊢
    rw [apply_eq] at h ⊢
    cases hr : s.refuse event with
    | error err => simp [hr] at h
    | ok _ =>
      simp only [hr] at h ⊢
      exact .cons (apply_ok_iff.mpr ⟨hr, rfl⟩) (ih ((taken_frame hr).2.2.trans hs) h)

/-- **An accepted log is a run** from the empty state to the one it derives. -/
theorem steps_of_accepted {log : List StoredEvent} (h : Accepted log) :
    RunSteps {} log (derive log) :=
  steps_of_deriveFrom rfl h

theorem derive_of_steps {s : RunState} {log : List StoredEvent} (h : RunSteps {} log s) :
    derive log = s :=
  deriveFrom_of_steps h

/-! ## Replay of a longer log -/

theorem deriveFrom_append (s : RunState) (log more : List StoredEvent) (hs : s.broken = none) :
    deriveFrom s (log ++ more) =
      if (deriveFrom s log).broken = none then deriveFrom (deriveFrom s log) more
      else deriveFrom s log := by
  induction log generalizing s with
  | nil => simp [deriveFrom, hs]
  | cons event log ih =>
    rw [List.cons_append, deriveFrom, deriveFrom, apply_eq]
    cases hr : s.refuse event with
    | error err => simp
    | ok _ => simpa using ih _ ((taken_frame hr).2.2.trans hs)

end Yunta.RunState

namespace Yunta

open RunState

theorem derive_append {log : List StoredEvent} (h : Accepted log) (more : List StoredEvent) :
    derive (log ++ more) = deriveFrom (derive log) more := by
  rw [derive, deriveFrom_append _ _ _ rfl]
  exact if_pos h

/-- What replay stopped at, it stays at. -/
theorem derive_broken {log : List StoredEvent} (h : ¬ Accepted log) (more : List StoredEvent) :
    derive (log ++ more) = derive log := by
  rw [derive, deriveFrom_append _ _ _ rfl]
  exact if_neg h

theorem accepted_of_append {log more : List StoredEvent} (h : Accepted (log ++ more)) :
    Accepted log := by
  by_contra hlog
  rw [Accepted, derive_broken hlog] at h
  exact hlog h

/-- An event a log takes is taken by the state the log derives. -/
theorem derive_snoc {log : List StoredEvent} {event : StoredEvent}
    (h : Accepted (log ++ [event])) :
    (derive log).refuse event = .ok () ∧ derive (log ++ [event]) = (derive log).taken event := by
  have hlog := accepted_of_append h
  have hderive := derive_append hlog [event]
  rw [deriveFrom, apply_eq] at hderive
  cases hr : (derive log).refuse event with
  | error err =>
    rw [hr] at hderive
    rw [Accepted, hderive] at h
    cases h
  | ok _ =>
    rw [hr] at hderive
    exact ⟨rfl, hderive⟩

end Yunta
