/-
  One event appended to a run's log, as every node's state sees it.

  `append` is what a writer does: it adds the event, and the next reader derives the state with it.
  `nodeEvent` is a node's own event under its envelope.  A start makes its node run, a terminal
  closes a node that runs, and neither moves any other node (`append_other`); later machines read
  those lemmas and never unfold the fold.
-/
import Yunta.Replay.Refusal

set_option linter.unusedVariables false

namespace Yunta

/-- A node's own event, where and when it was appended. -/
def nodeEvent (seq : Nat) (at_ : Int) (node : NodeId) (e : NodeEvent) : StoredEvent :=
  { seq := seq, timestamp := at_, nodeId := some node, body := .known (.node e) }

/-- Whether a node's event closes its attempt. -/
def NodeEvent.isTerminal : NodeEvent → Bool
  | .finished _ | .failed _ => true
  | _ => false

namespace RunState

/-- The state the log derives with one event more. -/
def append (s : RunState) (event : StoredEvent) : RunState := (s.apply event).1

section
variable (s : RunState) (seq : Nat) (at_ : Int) (node : NodeId)

theorem append_eq (event : StoredEvent) :
    s.append event = if s.refuse event = .ok () then s.taken event else s := by
  unfold append
  rw [apply_eq]
  cases s.refuse event with
  | error err => rfl
  | ok _ => rfl

/-- What a node's own event leaves of the nodes, when it is taken. -/
theorem taken_nodeEvent_state (e : NodeEvent) (a : NodeId) :
    (s.taken (nodeEvent seq at_ node e)).nodes.state a =
      if node = a then
        (((s.nodes.get a).getD {}).onEvent e (nodeEvent seq at_ node e).meta_
          s.run.suspensions).state
      else s.nodes.state a := by
  rw [taken_node rfl]
  refine (s.nodes.state_apply a e _ s.run.suspensions).trans ?_
  have hnode : (nodeEvent seq at_ node e).meta_.node = some node := rfl
  simp only [hnode, Option.some.injEq]

/-- **A node's own event moves no other node.** -/
theorem append_other (e : NodeEvent) {a : NodeId} (h : a ≠ node) :
    (s.append (nodeEvent seq at_ node e)).nodes.state a = s.nodes.state a := by
  rw [append_eq]
  split
  · rw [taken_nodeEvent_state, if_neg (Ne.symm h)]
  · rfl

theorem append_other_running (e : NodeEvent) {a : NodeId} (h : a ≠ node) :
    (s.append (nodeEvent seq at_ node e)).isRunning a = s.isRunning a := by
  rw [isRunning, append_other s seq at_ node e h]
  rfl

/-- **A start makes its node run.** -/
theorem append_started (p : NodeStartedPayload) :
    (s.append (nodeEvent seq at_ node (.started p))).nodes.state node =
      some (.running p.attempt) := by
  have htaken : s.refuse (nodeEvent seq at_ node (.started p)) = .ok () := rfl
  rw [append_eq, if_pos htaken, taken_nodeEvent_state, if_pos rfl, NodeRecord.onEvent_state]

/-- A terminal is taken of a node that runs. -/
theorem refuse_terminal {e : NodeEvent} (he : e.isTerminal = true)
    (hrunning : s.isRunning node = true) : s.refuse (nodeEvent seq at_ node e) = .ok () := by
  cases e with
  | finished p =>
    show (if s.isRunning node then (Except.ok () : Except ReplayError Unit) else _) = _
    rw [if_pos hrunning]
  | failed p =>
    show (if s.isRunning node then (Except.ok () : Except ReplayError Unit) else _) = _
    rw [if_pos hrunning]
  | _ => cases he

/-- A finish finishes a node that runs. -/
theorem append_finished (p : NodeFinishedPayload) (hrunning : s.isRunning node = true) :
    ∃ tokens, (s.append (nodeEvent seq at_ node (.finished p))).nodes.state node =
      some (.finished p.outcome tokens) := by
  rw [append_eq, if_pos (refuse_terminal s seq at_ node rfl hrunning), taken_nodeEvent_state,
    if_pos rfl, NodeRecord.onEvent_state]
  exact ⟨_, rfl⟩

/-- A failure fails a node that runs, and keeps what it failed on. -/
theorem append_failed (p : NodeFailedPayload) (hrunning : s.isRunning node = true) :
    ∃ tokens, (s.append (nodeEvent seq at_ node (.failed p))).nodes.state node =
      some (.failed p.failure tokens) := by
  rw [append_eq, if_pos (refuse_terminal s seq at_ node rfl hrunning), taken_nodeEvent_state,
    if_pos rfl, NodeRecord.onEvent_state]
  exact ⟨_, rfl⟩

end

/-! ## Where a node stands -/

def Finished (s : RunState) (node : NodeId) : Prop :=
  (s.nodes.state node).any NodeState.isFinished = true

def Failed (s : RunState) (node : NodeId) : Prop :=
  (s.nodes.state node).any NodeState.isFailed = true

instance (s : RunState) (node : NodeId) : Decidable (s.Finished node) :=
  inferInstanceAs (Decidable (_ = true))

instance (s : RunState) (node : NodeId) : Decidable (s.Failed node) :=
  inferInstanceAs (Decidable (_ = true))

section
variable {s : RunState} {node : NodeId}

/-- A node stands one way. -/
theorem Finished.alone (h : s.Finished node) : ¬ s.Failed node ∧ s.isRunning node = false ∧
    s.nodes.state node ≠ none := by
  unfold Finished at h
  unfold Failed isRunning
  cases hstate : s.nodes.state node with
  | none => simp [hstate] at h
  | some st =>
    rw [hstate] at h
    cases st with
    | finished outcome tokens => exact ⟨by simp [NodeState.isFailed], rfl, by simp⟩
    | _ => cases h

theorem Failed.alone (h : s.Failed node) : ¬ s.Finished node ∧ s.isRunning node = false ∧
    s.nodes.state node ≠ none := by
  unfold Failed at h
  unfold Finished isRunning
  cases hstate : s.nodes.state node with
  | none => simp [hstate] at h
  | some st =>
    rw [hstate] at h
    cases st with
    | failed failure tokens => exact ⟨by simp [NodeState.isFinished], rfl, by simp⟩
    | _ => cases h

theorem Finished.not_waiting (h : s.Finished node) :
    (s.nodes.state node).any NodeState.isWaiting = false := by
  unfold Finished at h
  cases hstate : s.nodes.state node with
  | none => rfl
  | some st => cases st <;> simp_all [NodeState.isFinished, NodeState.isWaiting]

theorem Failed.not_waiting (h : s.Failed node) :
    (s.nodes.state node).any NodeState.isWaiting = false := by
  unfold Failed at h
  cases hstate : s.nodes.state node with
  | none => rfl
  | some st => cases st <;> simp_all [NodeState.isFailed, NodeState.isWaiting]

end

end RunState

end Yunta
