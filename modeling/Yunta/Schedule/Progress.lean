/-
  The scheduler never blocks without a failure, and never finishes early.

  1. **What is left** — where nothing is fresh and every node with a state is finished, every node
     of the board is finished, but for untouched targets of a reroute (`finished_of_none_fresh`).
     The induction is over what a node waits on: the graph is acyclic and finite.

  2. **No block** — `decide_proceeds`: with every state finished, the run goes on, asks a gate,
     measures, or finishes.

  3. **No early finish** — `decide_finish`: what holds of the board where the answer is `finish`.
-/
import Yunta.Lib.Precedence
import Yunta.Replay.Waits
import Yunta.Schedule.Decide

set_option linter.unusedVariables false

namespace Yunta

open Relation (TransGen)

/-! ## The board of a workflow -/

section
variable {workflow : Workflow} {state : RunState} {policy : Policy}

theorem Board.mem_nodes {node : Node} :
    node ∈ (Board.of workflow state policy).nodes ↔
      node ∈ workflow.nodes ∧ isIncluded policy.modeNodes node.id = true := by
  simp [Board.of]

/-- A dependency of a node under the mode is one the mode includes, and one it waits on. -/
theorem Board.mem_depsOf {id dep : NodeId}
    (h : dep ∈ (Board.of workflow state policy).depsOf id) :
    isIncluded policy.modeNodes dep = true ∧ TransGen workflow.DependsOn id dep := by
  unfold Board.depsOf Board.of at h
  dsimp only at h
  cases hget : (dependenciesInMode workflow policy.modeNodes)[id]? with
  | none => simp [hget] at h
  | some deps =>
    rw [hget] at h
    exact mem_dependenciesInMode hget h

/-- A node that some node waits on is no target of a reroute only. -/
theorem Board.not_rerouteOnly_of_dep {node : Node} {dep : NodeId}
    (hnode : node ∈ (Board.of workflow state policy).nodes)
    (hdep : dep ∈ (Board.of workflow state policy).depsOf node.id) :
    (Board.of workflow state policy).rerouteOnly.contains dep = false := by
  rw [← Bool.not_eq_true, List.contains_iff_mem]
  intro hmem
  have hisolated := (List.mem_filter.mp hmem).2
  simp only [Bool.and_eq_true, Bool.not_eq_true'] at hisolated
  have hany := hisolated.2
  rw [List.any_eq_false] at hany
  exact hany node hnode (List.contains_iff_mem.mpr hdep)

/-- Every dependency a mode leaves a node is one the board can meet: a top-level node's, or one
    that `finished` already holds of.  What is neither is an id no node has, or a child of a group
    that never ran. -/
def Workflow.DepsMet (workflow : Workflow) (policy : Policy) (finished : NodeId → Bool) : Prop :=
  ∀ node ∈ workflow.nodes, isIncluded policy.modeNodes node.id = true →
    ∀ dep ∈ ((dependenciesInMode workflow policy.modeNodes)[node.id]?).getD [],
      (∃ other ∈ workflow.nodes, other.id = dep) ∨ finished dep = true

instance (workflow : Workflow) (policy : Policy) (finished : NodeId → Bool) :
    Decidable (workflow.DepsMet policy finished) :=
  inferInstanceAs (Decidable (∀ node ∈ workflow.nodes, _ → ∀ dep ∈ _, (∃ other ∈ _, _) ∨ _))

/-- **Where nothing is fresh, nothing is left**: in an acyclic workflow in which every node of the
    board that has a state is finished, and no node is ready, every node a reroute need not start is
    finished. -/
theorem Board.finished_of_none_fresh (hacyclic : workflow.Acyclic)
    (hdeps : workflow.DepsMet policy (Board.of workflow state policy).finished)
    (hstates : ∀ node ∈ (Board.of workflow state policy).nodes,
      state.nodes.hasState node.id = true →
        (Board.of workflow state policy).finished node.id = true)
    (hfresh : ∀ node ∈ (Board.of workflow state policy).nodes,
      (Board.of workflow state policy).isFresh node = false)
    {node : Node} (hnode : node ∈ (Board.of workflow state policy).nodes)
    (hstarted : (Board.of workflow state policy).rerouteOnly.contains node.id = false) :
    (Board.of workflow state policy).finished node.id = true := by
  -- the induction is over what a node waits on, directly or through others
  have hstrict : Precedence.Acyclic (TransGen workflow.DependsOn) := by
    intro id hcycle
    rw [Relation.transGen_eq_self] at hcycle
    exact hacyclic id hcycle
  have hmem : node.id ∈ workflow.nodes.map (·.id) :=
    List.mem_map.mpr ⟨node, (Board.mem_nodes.mp hnode).1, rfl⟩
  refine Precedence.induction_of_acyclic hstrict (P := fun id =>
    ∀ node ∈ (Board.of workflow state policy).nodes, node.id = id →
      (Board.of workflow state policy).rerouteOnly.contains id = false →
        (Board.of workflow state policy).finished id = true) ?_ node.id hmem node hnode rfl hstarted
  intro id hid ih node hnode hnodeId hstarted
  subst hnodeId
  by_cases hstate : state.nodes.hasState node.id = true
  · exact hstates node hnode hstate
  -- every dependency is finished, so the node is fresh
  have hsatisfied : (Board.of workflow state policy).depsSatisfied node = true := by
    unfold Board.depsSatisfied
    rw [List.all_eq_true]
    intro dep hdep
    obtain ⟨hincluded, hwaits⟩ := Board.mem_depsOf hdep
    obtain ⟨htop, hin⟩ := Board.mem_nodes.mp hnode
    rcases hdeps node htop hin dep hdep with ⟨other, hother, hotherId⟩ | hmet
    swap
    · exact hmet
    refine ih dep (List.mem_map.mpr ⟨other, hother, hotherId⟩) hwaits other ?_ hotherId
      (Board.not_rerouteOnly_of_dep hnode hdep)
    exact Board.mem_nodes.mpr ⟨hother, by rw [hotherId]; exact hincluded⟩
  have hnot : state.nodes.hasState node.id = false := by simpa using hstate
  have hisFresh : (Board.of workflow state policy).isFresh node = true := by
    simp only [Board.isFresh, hstarted, hsatisfied, Bool.and_eq_true, Bool.not_eq_true',
      Bool.not_false, and_true]
    exact hnot
  rw [hfresh node hnode] at hisFresh
  cases hisFresh

end

/-! ## Which question answers -/

theorem before_cases (workflow : Workflow) (state : RunState) (policy : Policy) (next : Decision) :
    before workflow state policy next = next ∨
      ∃ owed, before workflow state policy next = .measureBaseline owed := by
  unfold before
  split
  · split
    · exact Or.inr ⟨_, rfl⟩
    · exact Or.inl rfl
  · exact Or.inl rfl

/-- Where no question answers, what is ready does. -/
theorem Board.next_of_none {board : Board} (hgate : gateStep board = none)
    (hwaiting : waitingStep board = none) (hanswered : answeredStep board = none)
    (horphan : orphanStep board = none) (hfailure : failureStep board = none)
    (hreverify : reverifyStep board = none) : board.next = readyBatch board := by
  simp [Board.next, hgate, hwaiting, hanswered, horphan, hfailure, hreverify]

/-! ## Every state finished -/

section
variable {board : Board}

/-- Every node with a state is finished. -/
def AllFinished (state : RunState) : Prop :=
  ∀ id st, state.nodes.state id = some st → st.isFinished = true

theorem allFinished_iff {state : RunState} :
    AllFinished state ↔
      ∀ entry ∈ state.nodes.perNode.toList, entry.2.state.all NodeState.isFinished = true := by
  constructor
  · intro h entry hentry
    have hget := Std.ExtTreeMap.mem_toList_iff_getElem?_eq_some.mp hentry
    cases hstate : entry.2.state with
    | none => rfl
    | some st => exact h entry.1 st (by simp [NodeLedger.state, NodeLedger.get, hget, hstate])
  · intro h id st hst
    obtain ⟨r, hget, hstate⟩ := Option.bind_eq_some_iff.mp hst
    have hall := h (id, r) (Std.ExtTreeMap.mem_toList_iff_getElem?_eq_some.mpr hget)
    rw [hstate] at hall
    exact hall

instance (state : RunState) : Decidable (AllFinished state) := decidable_of_iff' _ allFinished_iff

theorem AllFinished.not_running (h : AllFinished board.state) (id : NodeId) :
    board.state.isRunning id = false := by
  unfold RunState.isRunning
  cases hstate : board.state.nodes.state id with
  | none => rfl
  | some st =>
    have hfinished := h id st hstate
    cases st with
    | finished outcome tokens => rfl
    | _ => cases hfinished

theorem AllFinished.gateStep_none (h : AllFinished board.state) : gateStep board = none := by
  unfold gateStep
  rw [Option.map_eq_none_iff, List.find?_eq_none]
  intro node _
  simp [h.not_running node.id]

theorem AllFinished.waitingStep_none (h : AllFinished board.state) : waitingStep board = none := by
  unfold waitingStep
  rw [List.findSome?_eq_none_iff]
  intro node _
  cases hstate : board.state.nodes.state node.id with
  | none => rfl
  | some st =>
    have hfinished := h node.id st hstate
    cases st with
    | finished outcome tokens => rfl
    | _ => cases hfinished

theorem AllFinished.orphanStep_none (h : AllFinished board.state) : orphanStep board = none := by
  have hnone : resumePolicies board.nodes board.state board.policy.onInterrupt = [] := by
    unfold resumePolicies
    rw [List.map_eq_nil_iff, List.filter_eq_nil_iff]
    intro node _
    simp [h.not_running node.id]
  unfold orphanStep
  rw [hnone]
  rfl

theorem AllFinished.failureStep_none (h : AllFinished board.state) : failureStep board = none := by
  unfold failureStep
  rw [List.findSome?_eq_none_iff]
  intro node _
  unfold Board.failureOf
  cases hstate : board.state.nodes.state node.id with
  | none => rfl
  | some st =>
    have hfinished := h node.id st hstate
    cases st with
    | finished outcome tokens => rfl
    | _ => cases hfinished

/-- Where nothing is fresh, no gate and no node is ready. -/
theorem none_fresh (hgate : readyGate board = none) (hnodes : readyNodes board = none) :
    ∀ node ∈ board.nodes, board.isFresh node = false := by
  intro node hnode
  by_cases hg : isGate node = true
  · have hnone := List.find?_eq_none.mp (Option.map_eq_none_iff.mp hgate) node hnode
    simpa [hg] using hnone
  · -- the batch is empty, and it holds at least one of the ready nodes
    unfold readyNodes at hnodes
    dsimp only at hnodes
    split at hnodes
    · next hempty =>
      rw [List.isEmpty_iff, List.map_eq_nil_iff, List.take_eq_nil_iff] at hempty
      have hready := hempty.resolve_left (by omega)
      have hnot := List.filter_eq_nil_iff.mp hready node hnode
      simpa [hg] using hnot
    · cases hnodes

end

/-! ## No block without a failure -/

/-- What goes on, asks, measures or finishes: no block, no pause, no failure. -/
def Proceeds (state : RunState) : Decision → Prop
  | .execute _ | .measureBaseline _ | .finish | .publishGate _ | .pollGate _ _
  | .resolveInternalGate _ => True
  | .finishAnswered id => state.answeredUnfinished id = true
  | _ => False

theorem Board.driveGate_proceeds (board : Board) (state : RunState) (node : Node) :
    Proceeds state (board.driveGate node) := by
  unfold driveGate
  split <;> trivial

section
variable {workflow : Workflow} {state : RunState} {policy : Policy}

/-- With every state finished and nothing ready, the run finishes. -/
theorem nothingRunnable_finish (hacyclic : workflow.Acyclic)
    (hdeps : workflow.DepsMet policy (Board.of workflow state policy).finished)
    (hfinished : AllFinished state) (hgate : readyGate (Board.of workflow state policy) = none)
    (hnodes : readyNodes (Board.of workflow state policy) = none) :
    nothingRunnable (Board.of workflow state policy) = .finish := by
  have hstates : ∀ node ∈ (Board.of workflow state policy).nodes,
      state.nodes.hasState node.id = true →
        (Board.of workflow state policy).finished node.id = true := by
    intro node _ hstate
    obtain ⟨st, hst⟩ := Option.isSome_iff_exists.mp hstate
    show (state.nodes.state node.id).any NodeState.isFinished = true
    rw [hst]
    exact hfinished node.id st hst
  have hleft : ∀ node ∈ (Board.of workflow state policy).nodes,
      (Board.of workflow state policy).isUnfinished node = false := by
    intro node hnode
    unfold Board.isUnfinished
    cases honly : (Board.of workflow state policy).rerouteOnly.contains node.id with
    | true =>
      cases hstate : state.nodes.hasState node.id with
      | true => simp [hstates node hnode hstate]
      | false =>
        have hnone : (Board.of workflow state policy).state.nodes.hasState node.id = false := hstate
        rw [hnone]
        exact Bool.and_false _
    | false =>
      have hdone := Board.finished_of_none_fresh hacyclic hdeps hstates (none_fresh hgate hnodes)
        hnode honly
      rw [hdone]
      rfl
  unfold nothingRunnable
  rw [List.find?_eq_none.mpr fun node hnode => by rw [hleft node hnode]; decide]

theorem readyBatch_proceeds (hacyclic : workflow.Acyclic)
    (hdeps : workflow.DepsMet policy (Board.of workflow state policy).finished)
    (hfinished : AllFinished state) :
    Proceeds state (readyBatch (Board.of workflow state policy)) := by
  unfold readyBatch
  cases hgate : readyGate (Board.of workflow state policy) with
  | some d =>
    obtain ⟨node, -, rfl⟩ := Option.map_eq_some_iff.mp hgate
    exact Board.driveGate_proceeds ..
  | none =>
    cases hnodes : readyNodes (Board.of workflow state policy) with
    | some d =>
      unfold readyNodes at hnodes
      dsimp only at hnodes
      split at hnodes
      · cases hnodes
      · rw [← Option.some.inj hnodes]
        trivial
    | none =>
      show Proceeds state (nothingRunnable _)
      rw [nothingRunnable_finish hacyclic hdeps hfinished hgate hnodes]
      trivial

/-- **With every state finished, the run goes on.** -/
theorem decide_proceeds (hacyclic : workflow.Acyclic)
    (hdeps : workflow.DepsMet policy (Board.of workflow state policy).finished)
    (hbroken : state.broken = none) (hfinished : AllFinished state) :
    Proceeds state (decide workflow state policy) := by
  unfold decide
  rw [hbroken]
  rcases before_cases workflow state policy (Board.of workflow state policy).next with h | ⟨owed, h⟩
  · dsimp only
    rw [h]
    have hall : AllFinished (Board.of workflow state policy).state := hfinished
    cases hanswered : answeredStep (Board.of workflow state policy) with
    | some d =>
      have hnext : (Board.of workflow state policy).next = d := by
        simp [Board.next, hall.gateStep_none, hall.waitingStep_none, hanswered]
      rw [hnext]
      obtain ⟨node, hfind, rfl⟩ := Option.map_eq_some_iff.mp hanswered
      have hanswered := List.find?_some hfind
      exact hanswered
    | none =>
      cases hreverify : reverifyStep (Board.of workflow state policy) with
      | some d =>
        have hnext : (Board.of workflow state policy).next = d := by
          simp [Board.next, hall.gateStep_none, hall.waitingStep_none, hanswered,
            hall.orphanStep_none, hall.failureStep_none, hreverify]
        rw [hnext]
        unfold reverifyStep at hreverify
        split at hreverify
        · cases hreverify
        · obtain ⟨node, -, rfl⟩ := Option.map_eq_some_iff.mp hreverify
          trivial
      | none =>
        rw [Board.next_of_none hall.gateStep_none hall.waitingStep_none hanswered
          hall.orphanStep_none hall.failureStep_none hreverify]
        exact readyBatch_proceeds hacyclic hdeps hfinished
  · dsimp only
    rw [h]
    trivial

end

/-! ## No early finish -/

theorem Board.driveGate_ne_finish (board : Board) (node : Node) :
    board.driveGate node ≠ .finish := by
  unfold driveGate
  split <;> exact fun h => nomatch h

theorem Board.pausedFailure_ne_finish (board : Board) (node : Node) (failure : Failure)
    (outlook : Outlook) : board.pausedFailure node failure outlook ≠ .finish := by
  unfold pausedFailure
  cases outlook with
  | waitUntil at_ => dsimp only; split <;> exact fun h => nomatch h
  | choose remedies => dsimp only; split <;> [skip; split] <;> exact fun h => nomatch h
  | stuck reason => dsimp only; split <;> [skip; split] <;> exact fun h => nomatch h

/-- No failure ends the run as finished. -/
theorem Board.failureOf_ne_finish (board : Board) (node : Node) :
    board.failureOf node ≠ some .finish := by
  unfold failureOf
  split
  · dsimp only
    split
    · unfold unrerouted
      dsimp only
      split
      · split <;> exact fun h => nomatch h
      · split
        · exact fun h => pausedFailure_ne_finish _ _ _ _ (Option.some.inj h)
        · exact fun h => nomatch h
        · exact fun h => nomatch h
    · unfold afterReroute
      dsimp only
      split
      · split
        · split
          · split
            · exact fun h => driveGate_ne_finish _ _ (Option.some.inj h)
            · exact fun h => nomatch h
          · exact fun h => nomatch h
        · exact fun h => nomatch h
        · split
          · exact fun h => driveGate_ne_finish _ _ (Option.some.inj h)
          · exact fun h => nomatch h
      · split <;> exact fun h => nomatch h
  · exact fun h => nomatch h

/-- A question that never answers `finish` leaves that answer to the questions after it. -/
theorem orElse_finish {first rest : Option Decision} {last : Decision}
    (hfirst : first ≠ some .finish) (h : (first <|> rest).getD last = .finish) :
    first = none ∧ rest.getD last = .finish := by
  cases first with
  | none => exact ⟨rfl, h⟩
  | some d => exact absurd (congrArg some h) hfirst

theorem gateStep_ne_finish (board : Board) : gateStep board ≠ some .finish := by
  intro h
  obtain ⟨node, -, hnode⟩ := Option.map_eq_some_iff.mp h
  exact board.driveGate_ne_finish node hnode

theorem waitingStep_ne_finish (board : Board) : waitingStep board ≠ some .finish := by
  intro h
  obtain ⟨node, -, hnode⟩ := List.exists_of_findSome?_eq_some h
  split at hnode
  · split at hnode <;> cases hnode
  · cases hnode
  · cases hnode

theorem answeredStep_ne_finish (board : Board) : answeredStep board ≠ some .finish := by
  intro h
  obtain ⟨node, -, hnode⟩ := Option.map_eq_some_iff.mp h
  cases hnode

theorem orphanStep_ne_finish (board : Board) : orphanStep board ≠ some .finish := by
  unfold orphanStep
  dsimp only
  split
  · exact fun h => nomatch h
  · split <;> exact fun h => nomatch h

theorem failureStep_ne_finish (board : Board) : failureStep board ≠ some .finish := by
  intro h
  obtain ⟨node, -, hnode⟩ := List.exists_of_findSome?_eq_some h
  exact board.failureOf_ne_finish node hnode

theorem reverifyStep_ne_finish (board : Board) : reverifyStep board ≠ some .finish := by
  intro h
  unfold reverifyStep at h
  split at h
  · cases h
  · obtain ⟨node, -, hnode⟩ := Option.map_eq_some_iff.mp h
    cases hnode

theorem Board.failedNode_ne_finish (board : Board) (node : Node) :
    board.failedNode node ≠ some .finish := by
  unfold failedNode
  split <;> exact fun h => nomatch h

/-- The ready set ends the run only where nothing is left unfinished. -/
theorem readyBatch_finish {board : Board} (h : readyBatch board = .finish) :
    ∀ node ∈ board.nodes, board.isUnfinished node = false := by
  have hgate : readyGate board ≠ some .finish := by
    intro hg
    obtain ⟨node, -, hnode⟩ := Option.map_eq_some_iff.mp hg
    exact board.driveGate_ne_finish node hnode
  have hnodes : readyNodes board ≠ some .finish := by
    unfold readyNodes
    dsimp only
    split <;> exact fun h => nomatch h
  obtain ⟨-, hrest⟩ := orElse_finish hgate h
  cases hready : readyNodes board with
  | some d =>
    rw [hready] at hrest hnodes
    exact absurd (congrArg some hrest) hnodes
  | none =>
    rw [hready] at hrest
    have hlast : nothingRunnable board = .finish := hrest
    unfold nothingRunnable at hlast
    split at hlast
    · next hfind =>
      intro node hnode
      simpa using List.find?_eq_none.mp hfind node hnode
    · dsimp only at hlast
      split at hlast
      · cases hfailed : board.nodes.findSome? board.failedNode with
        | none => rw [hfailed] at hlast; cases hlast
        | some d =>
          rw [hfailed] at hlast
          obtain ⟨node, -, hnode⟩ := List.exists_of_findSome?_eq_some hfailed
          obtain rfl : d = .finish := hlast
          exact absurd hnode (board.failedNode_ne_finish node)
      · cases hlast

/-- **Only the ready set ends the run**, with no invariant to run again and nothing unfinished. -/
theorem Board.next_finish {board : Board} (h : board.next = .finish) :
    reverifyStep board = none ∧ ∀ node ∈ board.nodes, board.isUnfinished node = false := by
  unfold Board.next at h
  obtain ⟨-, h⟩ := orElse_finish (gateStep_ne_finish board) h
  obtain ⟨-, h⟩ := orElse_finish (waitingStep_ne_finish board) h
  obtain ⟨-, h⟩ := orElse_finish (answeredStep_ne_finish board) h
  obtain ⟨-, h⟩ := orElse_finish (orphanStep_ne_finish board) h
  obtain ⟨-, h⟩ := orElse_finish (failureStep_ne_finish board) h
  cases hreverify : reverifyStep board with
  | none =>
    rw [hreverify] at h
    exact ⟨rfl, readyBatch_finish h⟩
  | some d =>
    rw [hreverify] at h
    obtain rfl : d = .finish := h
    exact absurd hreverify (reverifyStep_ne_finish board)

section
variable {workflow : Workflow} {state : RunState} {policy : Policy}

/-- **What holds where the run finishes**: every node of the board is finished, but for a target of
    a reroute without a state, and no invariant is stale while nothing runs. -/
theorem decide_finish (h : decide workflow state policy = .finish) :
    (∀ node ∈ (Board.of workflow state policy).nodes,
      (Board.of workflow state policy).finished node.id = true ∨
        (Board.of workflow state policy).rerouteOnly.contains node.id = true ∧
          state.nodes.hasState node.id = false) ∧
    ((Board.of workflow state policy).anyRunning = false →
      ∀ node ∈ (Board.of workflow state policy).verifiers,
        (Board.of workflow state policy).isStale node = false) := by
  unfold decide at h
  split at h
  · cases h
  have hnext : (Board.of workflow state policy).next = .finish := by
    rcases before_cases workflow state policy (Board.of workflow state policy).next with
      hb | ⟨owed, hb⟩
    · rw [← hb]
      exact h
    · rw [hb] at h
      cases h
  obtain ⟨hreverify, hunfinished⟩ := Board.next_finish hnext
  constructor
  · intro node hnode
    have hnot := hunfinished node hnode
    unfold Board.isUnfinished at hnot
    cases hdone : (Board.of workflow state policy).finished node.id with
    | true => exact Or.inl rfl
    | false =>
      rw [hdone, Bool.not_false, Bool.true_and, Bool.not_eq_false'] at hnot
      rw [Bool.and_eq_true, Bool.not_eq_true'] at hnot
      exact Or.inr hnot
  · intro hidle node hnode
    unfold reverifyStep at hreverify
    rw [hidle] at hreverify
    simpa using List.find?_eq_none.mp (Option.map_eq_none_iff.mp hreverify) node hnode

end

/-! ## Over a log -/

/-- No start and no terminal of `node` is in `log`. -/
def NeverRan (node : NodeId) (log : List StoredEvent) : Prop :=
  Interrupt.Move.replaces ∉ log.map (waitMove node)

instance (node : NodeId) (log : List StoredEvent) : Decidable (NeverRan node log) :=
  inferInstanceAs (Decidable (_ ∉ _))

/-- **The scheduler never blocks without a failure, and never finishes early**, from any log.  Where
    every state is finished it goes on; where it finishes, the mode's nodes are finished, but for
    targets of a reroute that never ran, and no invariant is stale unless something still runs. -/
theorem decide_safe (workflow : Workflow) (policy : Policy) (log : List StoredEvent) :
    (workflow.Acyclic →
      workflow.DepsMet policy (Board.of workflow (derive log) policy).finished →
      Accepted log → AllFinished (derive log) →
      Proceeds (derive log) (decide workflow (derive log) policy)) ∧
    (decide workflow (derive log) policy = .finish →
      (∀ node ∈ workflow.nodes, isIncluded policy.modeNodes node.id = true →
        (Board.of workflow (derive log) policy).finished node.id = true ∨
          (Board.of workflow (derive log) policy).rerouteOnly.contains node.id = true ∧
            (derive log).nodes.hasState node.id = false ∧
            (RunState.NeverReparks node.id log → NeverRan node.id log)) ∧
      ((Board.of workflow (derive log) policy).anyRunning = false →
        ∀ node ∈ (Board.of workflow (derive log) policy).verifiers,
          (Board.of workflow (derive log) policy).isStale node = false)) := by
  refine ⟨fun hacyclic hdeps h hfinished => decide_proceeds hacyclic hdeps h hfinished, ?_⟩
  intro hfinish
  have haccepted : Accepted log := by
    cases hbroken : (derive log).broken with
    | none => exact hbroken
    | some diagnostic => simp [decide, hbroken] at hfinish
  obtain ⟨hboard, hfresh⟩ := decide_finish hfinish
  refine ⟨?_, hfresh⟩
  intro node hnode hincluded
  rcases hboard node (Board.mem_nodes.mpr ⟨hnode, hincluded⟩) with hdone | ⟨honly, hnone⟩
  · exact Or.inl hdone
  · refine Or.inr ⟨honly, hnone, ?_⟩
    intro hopen hran
    rw [RunState.started_hasState haccepted hopen hran] at hnone
    cases hnone

/-- A workflow whose nodes only wait on nodes of lower rank is acyclic. -/
theorem Workflow.acyclic_of_rank {workflow : Workflow} (rank : NodeId → Nat)
    (h : ∀ node ∈ workflow.nodes, ∀ dep ∈ node.dependsOn, rank dep < rank node.id) :
    workflow.Acyclic := by
  refine Precedence.acyclic_of_rank rank ?_
  rintro id dep ⟨node, hnode, rfl, hdep⟩
  exact h node hnode dep hdep

/-- One node at a time, over the whole graph. -/
def onePolicy : Policy := { maxParallelNodes := 1 }

/-- A correction `b` of `a`'s, which nothing else starts. -/
def correctedWorkflow : Workflow :=
  ⟨[⟨"a", .bash, [], some ⟨"b", 1⟩, none, none, false, .unscoped⟩,
    ⟨"b", .bash, [], none, none, none, false, .unscoped⟩]⟩

/-- One attempt of `a` that finished. -/
def finishedLog : List StoredEvent :=
  [⟨"", 1, 0, some "a", .known (.node (.started ⟨1, none, none⟩))⟩,
    ⟨"", 2, 0, some "a", .known (.node (.finished {}))⟩]

theorem decide_safe_corrected :
    Proceeds (derive finishedLog) (decide correctedWorkflow (derive finishedLog) onePolicy) ∧
      NeverRan "b" finishedLog := by
  constructor
  · refine (decide_safe correctedWorkflow onePolicy finishedLog).1 ?_ (by decide +kernel)
      (by decide) (by decide +kernel)
    exact Workflow.acyclic_of_rank (fun _ => 0) (by decide)
  · have hsafe := (decide_safe correctedWorkflow onePolicy finishedLog).2 (by decide +kernel)
    have hb := hsafe.1 ⟨"b", .bash, [], none, none, none, false, .unscoped⟩
      (by simp [correctedWorkflow])
      (by decide)
    rcases hb with hdone | ⟨-, -, hran⟩
    · exact absurd hdone (by decide +kernel)
    · exact hran (by decide)

/-- A node that waits on an id no node has. -/
def danglingWorkflow : Workflow :=
  ⟨[⟨"a", .bash, ["ghost"], none, none, none, false, .unscoped⟩]⟩

/-- A node that waits on the child of a group, whose own close is the group's alone. -/
def childWorkflow : Workflow :=
  ⟨[⟨"a", .parallel [⟨"child", .bash, [], none, none, none, false, .unscoped⟩], [], none, none,
      none, false, .unscoped⟩,
    ⟨"b", .bash, ["child"], none, none, none, false, .unscoped⟩]⟩

/-- A gate of `a` asked after its close, and answered. -/
def answeredLateLog : List StoredEvent :=
  [⟨"", 1, 0, some "a", .known (.node (.started ⟨1, none, none⟩))⟩,
    ⟨"", 2, 0, some "a", .known (.gates (.questionsAsked ⟨["q"], {}⟩))⟩,
    ⟨"", 3, 0, some "a", .known (.gates (.questionsAnswered {}))⟩,
    ⟨"", 4, 0, some "a", .known (.node (.finished {}))⟩,
    ⟨"", 5, 0, some "a", .known (.gates (.waiting {}))⟩,
    ⟨"", 6, 0, some "a", .known (.gates (.questionsAnswered {}))⟩]

/-- The correction `b` started, and its state lost to a wait opened twice and closed twice. -/
def strandedLog : List StoredEvent :=
  finishedLog ++
    [⟨"", 3, 0, some "b", .known (.node (.started ⟨1, none, none⟩))⟩,
      ⟨"", 4, 0, some "b", .known (.gates (.waiting {}))⟩,
      ⟨"", 5, 0, some "b", .known (.gates (.waiting {}))⟩,
      ⟨"", 6, 0, some "b", .known (.gates (.resolved .closed))⟩,
      ⟨"", 7, 0, some "b", .known (.gates (.resolved .closed))⟩]

/-- An invariant `v` beside a node `a`. -/
def verifiedWorkflow : Workflow :=
  ⟨[⟨"v", .bash, [], none, none, none, true, .unscoped⟩,
    ⟨"a", .bash, [], none, none, none, false, .unscoped⟩]⟩

/-- `a` moved the tree `v` passed on, and a node off the board still runs. -/
def besideLog : List StoredEvent :=
  [⟨"", 1, 0, some "v", .known (.node (.started ⟨1, some "t", none⟩))⟩,
    ⟨"", 2, 0, some "v", .known (.node (.finished ⟨.summary "", {}, some "t"⟩))⟩,
    ⟨"", 3, 0, some "a", .known (.node (.started ⟨1, some "t", none⟩))⟩,
    ⟨"", 4, 0, some "a", .known (.node (.finished ⟨.summary "", {}, some "u"⟩))⟩,
    ⟨"", 5, 0, some "child", .known (.node (.started ⟨1, some "u", none⟩))⟩]

/-- Where the scheduler does block or finish early: on a dependency that is no node, or no top-level
    one; after a late answer; where a wait opened twice lost a start; and beside a node that still
    runs. -/
theorem decide_not_safe :
    (danglingWorkflow.Acyclic ∧ AllFinished (derive []) ∧
      decide danglingWorkflow (derive []) onePolicy = .pause (.blocked "a" ["ghost"])) ∧
    (childWorkflow.Acyclic ∧ Accepted finishedLog ∧ AllFinished (derive finishedLog) ∧
      decide childWorkflow (derive finishedLog) onePolicy = .pause (.blocked "b" ["child"])) ∧
    (Accepted answeredLateLog ∧ AllFinished (derive answeredLateLog) ∧
      decide correctedWorkflow (derive answeredLateLog) onePolicy = .finishAnswered "a") ∧
    (Accepted strandedLog ∧ ¬ NeverRan "b" strandedLog ∧
      decide correctedWorkflow (derive strandedLog) onePolicy = .finish ∧
      (Board.of correctedWorkflow (derive strandedLog) onePolicy).finished "b" = false) ∧
    (Accepted besideLog ∧ decide verifiedWorkflow (derive besideLog) onePolicy = .finish ∧
      ((Board.of verifiedWorkflow (derive besideLog) onePolicy).verifiers.all
        (Board.of verifiedWorkflow (derive besideLog) onePolicy).isStale) = true) := by
  refine ⟨⟨?_, by decide +kernel, by decide +kernel⟩,
    ⟨?_, by decide, by decide +kernel, by decide +kernel⟩,
    ⟨by decide, by decide +kernel, by decide +kernel⟩,
    ⟨by decide, by decide, by decide +kernel, by decide +kernel⟩,
    by decide, by decide +kernel, by decide +kernel⟩
  · exact Workflow.acyclic_of_rank (fun id => if id = "a" then 1 else 0) (by decide)
  · exact Workflow.acyclic_of_rank (fun id => if id = "b" then 1 else 0) (by decide)

end Yunta
