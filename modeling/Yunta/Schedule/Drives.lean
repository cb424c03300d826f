/-
  Which nodes a decision drives: those the engine may start, or park on a wait, before it decides
  again.

  An answer drives nodes that run or wait already (gates, waits, orphans), or, with no node of the
  board running or waiting, one node alone (a failure, a stale invariant) or nodes that are fresh
  (`next_drives`).  So two nodes are driven at once only as orphans, or as fresh nodes.
-/
import Yunta.Schedule.Decide

set_option linter.unusedVariables false

namespace Yunta

/-- The nodes a decision may start or park. -/
def Decision.drives : Decision → List NodeId
  | execute batch => batch.map (·.1)
  | publishGate node | resolveInternalGate node => [node]
  | pollGate node _ => [node]
  | escalateFailure node _ _ _ => [node]
  | gateExhaustedReroutes node _ _ _ => [node]
  | _ => []

/-- Whether a node runs, or waits on a person or a forge. -/
def RunState.isActive (s : RunState) (node : NodeId) : Bool := s.isRunning node || s.isWaiting node

/-- No node of the board waits, and none but a gate runs. -/
def Board.Quiet (board : Board) : Prop :=
  ∀ node ∈ board.nodes, isGate node = false → board.state.isActive node.id = false

/-- Every driven node is one of the board's that is no gate, unless it is driven alone. -/
def Board.Batched (board : Board) (d : Decision) : Prop :=
  d.drives.length ≤ 1 ∨ ∀ id ∈ d.drives, ∃ node ∈ board.nodes, node.id = id ∧ isGate node = false

/-- What an answer drives. -/
inductive Board.Drives (board : Board) (d : Decision) : Prop
  /-- Nodes that run or wait already. -/
  | standing (hactive : ∀ id ∈ d.drives, board.state.isActive id = true)
      (hbatched : board.Batched d)
  /-- One node at most, which has a state or resolves a failure. -/
  | alone (hquiet : board.Quiet) (hone : d.drives.length ≤ 1)
      (hfrom : ∀ id ∈ d.drives, board.state.nodes.hasState id = true ∨ failureStep board = some d)
  /-- Nodes that are fresh. -/
  | fresh (hquiet : board.Quiet)
      (hfresh : ∀ id ∈ d.drives, ∃ node ∈ board.nodes, node.id = id ∧ board.isFresh node = true)
      (hbatched : board.Batched d)

section
variable {board : Board}

theorem Board.drives_driveGate (node : Node) : (board.driveGate node).drives = [node.id] := by
  unfold driveGate
  split <;> rfl

theorem Board.drives_of_none {d : Decision} (h : d.drives = []) : board.Drives d := by
  refine .standing ?_ (.inl ?_)
  · intro id hid
    rw [h] at hid
    cases hid
  · rw [h]
    exact Nat.zero_le 1

/-- A running gate is driven again. -/
theorem gateStep_drives {d : Decision} (h : gateStep board = some d) : board.Drives d := by
  obtain ⟨node, hnode, rfl⟩ := Option.map_eq_some_iff.mp h
  have hgate := List.find?_some hnode
  simp only [Bool.and_eq_true] at hgate
  refine .standing ?_ (.inl ?_)
  · intro id hid
    rw [Board.drives_driveGate] at hid
    rw [List.mem_singleton.mp hid, RunState.isActive, hgate.2]
    rfl
  · rw [Board.drives_driveGate]
    exact Nat.le_refl 1

/-- A waiting node is driven where it waits on a gate. -/
theorem waitingStep_drives {d : Decision} (h : waitingStep board = some d) : board.Drives d := by
  obtain ⟨node, -, hnode⟩ := List.exists_of_findSome?_eq_some h
  split at hnode
  · next ref hstate =>
    have hwaits : board.state.isActive node.id = true := by
      simp [RunState.isActive, RunState.isWaiting, hstate, NodeState.isWaiting]
    have hdrives : d.drives = [node.id] := by
      split at hnode <;> · cases hnode; rfl
    refine .standing ?_ (.inl (by rw [hdrives]; exact Nat.le_refl 1))
    intro id hid
    rw [hdrives] at hid
    rw [List.mem_singleton.mp hid]
    exact hwaits
  · cases hnode
    exact Board.drives_of_none rfl
  · cases hnode

theorem answeredStep_drives {d : Decision} (h : answeredStep board = some d) : board.Drives d := by
  obtain ⟨node, -, rfl⟩ := Option.map_eq_some_iff.mp h
  exact Board.drives_of_none rfl

/-- Orphans restart together, and each of them runs. -/
theorem orphanStep_drives {d : Decision} (h : orphanStep board = some d) : board.Drives d := by
  unfold orphanStep at h
  dsimp only at h
  split at h
  · cases h
  split at h
  · cases h
    exact Board.drives_of_none rfl
  · cases h
    have horphan : ∀ id ∈ (Decision.execute ((resumePolicies board.nodes board.state
        board.policy.onInterrupt).map fun policy =>
          (policy.node, board.nextAttempt policy.node))).drives,
        ∃ node ∈ board.nodes, node.id = id ∧ isGate node = false ∧
          board.state.isRunning id = true := by
      intro id hid
      simp only [Decision.drives, resumePolicies, List.map_map, List.mem_map, List.mem_filter,
        Bool.and_eq_true, Bool.not_eq_true'] at hid
      obtain ⟨node, ⟨hmem, hgate, hrunning⟩, rfl⟩ := hid
      exact ⟨node, hmem, rfl, hgate, hrunning⟩
    refine .standing ?_ (.inr ?_)
    · intro id hid
      obtain ⟨node, -, -, -, hrunning⟩ := horphan id hid
      rw [RunState.isActive, hrunning]
      rfl
    · intro id hid
      obtain ⟨node, hmem, hnode, hgate, -⟩ := horphan id hid
      exact ⟨node, hmem, hnode, hgate⟩

/-- Where neither a wait nor an orphan answers, nothing runs or waits but gates. -/
theorem Board.quiet_of_none (hwaiting : waitingStep board = none)
    (horphan : orphanStep board = none) : board.Quiet := by
  intro node hmem hgate
  rw [RunState.isActive, Bool.or_eq_false_iff]
  constructor
  · -- a running node is an orphan
    by_contra hrunning
    rw [Bool.not_eq_false] at hrunning
    have hpolicy : (⟨node.id, node.onInterrupt.getD board.policy.onInterrupt⟩ : ResumePolicy) ∈
        resumePolicies board.nodes board.state board.policy.onInterrupt :=
      List.mem_map.mpr ⟨node, List.mem_filter.mpr ⟨hmem, by simp [hgate, hrunning]⟩, rfl⟩
    unfold orphanStep at horphan
    dsimp only at horphan
    split at horphan
    · next hempty =>
      rw [List.isEmpty_iff.mp hempty] at hpolicy
      cases hpolicy
    · split at horphan <;> cases horphan
  · by_contra hwaits
    rw [Bool.not_eq_false] at hwaits
    have hnone := List.findSome?_eq_none_iff.mp hwaiting node hmem
    rw [RunState.isWaiting] at hwaits
    cases hstate : board.state.nodes.state node.id with
    | none => simp [hstate] at hwaits
    | some st =>
      rw [hstate] at hwaits hnone
      cases st with
      | waiting on => cases on <;> cases hnone
      | _ => cases hwaits

/-! ## What runs alone -/

theorem Board.drives_pausedFailure (node : Node) (failure : Failure) (outlook : Outlook) :
    (board.pausedFailure node failure outlook).drives.length ≤ 1 := by
  unfold pausedFailure
  cases outlook with
  | waitUntil at_ => dsimp only; split <;> simp [Decision.drives]
  | choose remedies => dsimp only; split <;> [skip; split] <;> simp [Decision.drives]
  | stuck reason => dsimp only; split <;> [skip; split] <;> simp [Decision.drives]

/-- **A failure drives one node at most.** -/
theorem Board.drives_failureOf {node : Node} {d : Decision} (h : board.failureOf node = some d) :
    d.drives.length ≤ 1 := by
  have hgate : ∀ gate : Node, (board.driveGate gate).drives.length ≤ 1 := by
    intro gate
    rw [Board.drives_driveGate]
    exact Nat.le_refl 1
  unfold failureOf at h
  split at h
  · dsimp only at h
    split at h
    · unfold unrerouted at h
      dsimp only at h
      split at h
      · split at h <;> · cases h; simp [Decision.drives]
      · split at h
        · cases h
          exact drives_pausedFailure _ _ _
        · cases h
          simp [Decision.drives]
        · cases h
    · unfold afterReroute at h
      dsimp only at h
      split at h
      · split at h
        · split at h
          · split at h
            · cases h
              exact hgate _
            · cases h
              simp [Decision.drives]
          · cases h
            simp [Decision.drives]
        · cases h
        · split at h
          · cases h
            exact hgate _
          · cases h
            simp [Decision.drives]
      · split at h
        · cases h
        · cases h
          simp [Decision.drives]
  · cases h

theorem failureStep_drives {d : Decision} (hquiet : board.Quiet) (h : failureStep board = some d) :
    board.Drives d := by
  obtain ⟨node, -, hnode⟩ := List.exists_of_findSome?_eq_some h
  exact .alone hquiet (board.drives_failureOf hnode) fun id hid => .inr h

/-- A stale invariant runs again alone, and it is finished. -/
theorem reverifyStep_drives {d : Decision} (hquiet : board.Quiet)
    (h : reverifyStep board = some d) : board.Drives d := by
  unfold reverifyStep at h
  split at h
  · cases h
  obtain ⟨node, hnode, rfl⟩ := Option.map_eq_some_iff.mp h
  have hstale := List.find?_some hnode
  unfold Board.isStale at hstale
  obtain ⟨record, hget, hrecord⟩ := (Option.any_eq_true ..).mp hstale
  refine .alone hquiet (Nat.le_refl 1) ?_
  intro id hid
  rw [List.mem_singleton.mp hid]
  refine .inl ?_
  have hfinished := (Bool.and_eq_true_iff.mp hrecord).1
  rw [NodeLedger.hasState, NodeLedger.state, hget, Option.bind_some]
  cases hstate : record.state with
  | none => simp [hstate] at hfinished
  | some st => rfl

/-! ## What is ready -/

theorem readyGate_drives {d : Decision} (hquiet : board.Quiet) (h : readyGate board = some d) :
    board.Drives d := by
  obtain ⟨node, hnode, rfl⟩ := Option.map_eq_some_iff.mp h
  have hfresh := List.find?_some hnode
  simp only [Bool.and_eq_true] at hfresh
  refine .fresh hquiet ?_ (.inl ?_)
  · intro id hid
    rw [Board.drives_driveGate] at hid
    exact ⟨node, List.mem_of_find?_eq_some hnode, (List.mem_singleton.mp hid).symm, hfresh.2⟩
  · rw [Board.drives_driveGate]
    exact Nat.le_refl 1

theorem readyNodes_drives {d : Decision} (hquiet : board.Quiet) (h : readyNodes board = some d) :
    board.Drives d := by
  unfold readyNodes at h
  dsimp only at h
  split at h
  · cases h
  cases h
  have hready : ∀ id ∈ (Decision.execute (((board.nodes.filter fun node =>
      !isGate node && board.isFresh node).take (max board.policy.maxParallelNodes 1)).map
        fun node => (node.id, 1))).drives,
      ∃ node ∈ board.nodes, node.id = id ∧ isGate node = false ∧ board.isFresh node = true := by
    intro id hid
    simp only [Decision.drives, List.map_map, List.mem_map] at hid
    obtain ⟨node, hmem, rfl⟩ := hid
    obtain ⟨hmem, hfresh⟩ := List.mem_filter.mp (List.mem_of_mem_take hmem)
    simp only [Bool.and_eq_true, Bool.not_eq_true'] at hfresh
    exact ⟨node, hmem, rfl, hfresh.1, hfresh.2⟩
  refine .fresh hquiet ?_ (.inr ?_)
  · intro id hid
    obtain ⟨node, hmem, hnode, -, hfresh⟩ := hready id hid
    exact ⟨node, hmem, hnode, hfresh⟩
  · intro id hid
    obtain ⟨node, hmem, hnode, hgate, -⟩ := hready id hid
    exact ⟨node, hmem, hnode, hgate⟩

theorem nothingRunnable_drives : (nothingRunnable board).drives = [] := by
  unfold nothingRunnable
  split
  · rfl
  · dsimp only
    split
    · cases hfailed : board.nodes.findSome? board.failedNode with
      | none => rfl
      | some d =>
        obtain ⟨node, -, hnode⟩ := List.exists_of_findSome?_eq_some hfailed
        unfold Board.failedNode at hnode
        split at hnode
        · cases hnode
          rfl
        · cases hnode
    · rfl

theorem readyBatch_drives (hquiet : board.Quiet) : board.Drives (readyBatch board) := by
  unfold readyBatch
  cases hgate : readyGate board with
  | some d => exact readyGate_drives hquiet hgate
  | none =>
    cases hnodes : readyNodes board with
    | some d => exact readyNodes_drives hquiet hnodes
    | none => exact Board.drives_of_none nothingRunnable_drives

/-- **What the questions and the ready set drive.** -/
theorem next_drives (board : Board) : board.Drives board.next := by
  unfold Board.next
  cases hgate : gateStep board with
  | some d => exact gateStep_drives hgate
  | none =>
  cases hwaiting : waitingStep board with
  | some d => exact waitingStep_drives hwaiting
  | none =>
  cases hanswered : answeredStep board with
  | some d => exact answeredStep_drives hanswered
  | none =>
  cases horphan : orphanStep board with
  | some d => exact orphanStep_drives horphan
  | none =>
  have hquiet := board.quiet_of_none hwaiting horphan
  cases hfailure : failureStep board with
  | some d => exact failureStep_drives hquiet hfailure
  | none =>
  cases hreverify : reverifyStep board with
  | some d => exact reverifyStep_drives hquiet hreverify
  | none => exact readyBatch_drives hquiet

/-- **What a decision drives**: where the run owes its measurement first, nothing. -/
theorem decide_drives (workflow : Workflow) {state : RunState} (policy : Policy)
    (h : state.broken = none) :
    (Board.of workflow state policy).Drives (decide workflow state policy) := by
  unfold decide
  rw [h]
  dsimp only
  unfold before
  split
  · split
    · exact Board.drives_of_none rfl
    · exact next_drives _
  · exact next_drives _

end

end Yunta
