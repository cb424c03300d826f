/-
  The loop runs the whole graph, in dependency order.

  1. **A batch, run** — `RanBatch` is what a batch appends where nothing fails: one start and one
     finish of each member, in any order the members' sessions interleave.  Whatever the order, the
     members are finished after it, and nothing else moved (`ranBatch_finishes`).

  2. **One turn** — over a graph with no gate, no invariant and no measurement, and a state in which
     exactly the nodes `done` ran, the answer is a batch of fresh nodes or the end
     (`plain_decides`).

  3. **The loop** — by induction on the turns, `done` growing with each batch: the loop ends, and
     every node ran once (`drive_in_order`).
-/
import Yunta.Schedule.Drive
import Yunta.Schedule.Progress

set_option linter.unusedVariables false

namespace Yunta

/-! ## A batch, run -/

/-- One attempt of `node` as it ran where it finished: its start, and its finish. -/
def Ran (node : NodeId) (attempt : Nat) (events : List StoredEvent) : Prop :=
  ∃ started finished opening closing,
    events = [started, finished] ∧
      started.payload = some (.node (.started opening)) ∧ opening.attempt = attempt ∧
      finished.payload = some (.node (.finished closing))

/-- What a batch appends: for each member its start and then its finish, the members' events
    interleaved in any order, and nothing else. -/
structure RanBatch (batch : List (NodeId × Nat)) (events : List StoredEvent) : Prop where
  each : ∀ member ∈ batch,
    Ran member.1 member.2 (events.filter fun event => event.nodeId = some member.1)
  only : ∀ event ∈ events, ∃ member ∈ batch, event.nodeId = some member.1

/-- What is still to come of a node's events: nothing, a finish of the attempt that runs, or a whole
    attempt. -/
inductive Coming (s : RunState) (node : NodeId) : List StoredEvent → Prop
  | nothing : Coming s node []
  | finish {event : StoredEvent} {p : NodeFinishedPayload}
      (hp : event.payload = some (.node (.finished p))) (hrunning : s.isRunning node = true) :
      Coming s node [event]
  | attempt {event next : StoredEvent} {p : NodeStartedPayload} {q : NodeFinishedPayload}
      (hp : event.payload = some (.node (.started p)))
      (hq : next.payload = some (.node (.finished q))) :
      Coming s node [event, next]

/-- What the next event of a node's own does to it: a start makes it run, and a finish finishes
    it. -/
theorem coming_step {s : RunState} {node : NodeId} {event : StoredEvent} {rest : List StoredEvent}
    (h : Coming s node (event :: rest)) (hnode : event.nodeId = some node) :
    s.refuse event = .ok () ∧ (s.taken event).gates = s.gates ∧
      (∀ a, a ≠ node → (s.taken event).nodes.state a = s.nodes.state a) ∧
      Coming (s.taken event) node rest ∧
      (rest = [] → ((s.taken event).nodes.state node).any NodeState.isFinished = true) := by
  have hothers : ∀ e : NodeEvent, event.payload = some (.node e) →
      ∀ a, a ≠ node → (s.taken event).nodes.state a = s.nodes.state a := by
    intro e he a ha
    rw [RunState.taken_node he]
    refine (s.nodes.state_apply a e event.meta_ s.run.suspensions).trans (if_neg ?_)
    intro hm
    exact ha (Option.some.inj (hm.symm.trans hnode))
  have hown : ∀ e : NodeEvent, event.payload = some (.node e) →
      (s.taken event).nodes.state node =
        (((s.nodes.get node).getD {}).onEvent e event.meta_ s.run.suspensions).state := by
    intro e he
    rw [RunState.taken_node he]
    exact (s.nodes.state_apply node e event.meta_ s.run.suspensions).trans
      (if_pos (show event.meta_.node = some node from hnode))
  cases h with
  | @finish _ p hp hrunning =>
    refine ⟨?_, by rw [RunState.taken_node hp]; rfl, hothers _ hp, .nothing, fun _ => ?_⟩
    · simp [RunState.refuse, hp, RunState.refuseNode, RunState.requireNodeId, hnode, hrunning]
    · rw [hown _ hp, NodeRecord.onEvent_state]
      rfl
  | @attempt _ next p q hp hq =>
    refine ⟨?_, by rw [RunState.taken_node hp]; rfl, hothers _ hp, .finish hq ?_,
      fun h => absurd h (List.cons_ne_nil _ _)⟩
    · simp [RunState.refuse, hp, RunState.refuseNode, RunState.requireNodeId, hnode]
    · rw [RunState.isRunning, hown _ hp, NodeRecord.onEvent_state]
      rfl

/-- **A batch runs whole**, however its members' events interleave: every event is taken, each node
    that has one is finished after it, and every other node is as it was. -/
theorem coming_run {s : RunState} {events : List StoredEvent}
    (hcoming : ∀ node, Coming s node (events.filter fun event => event.nodeId = some node))
    (hnamed : ∀ event ∈ events, event.nodeId.isSome) :
    ∃ t, RunSteps s events t ∧ t.broken = s.broken ∧ t.gates = s.gates ∧
      ∀ node, (t.nodes.state node = s.nodes.state node ∧
          ∀ event ∈ events, event.nodeId ≠ some node) ∨
        ((t.nodes.state node).any NodeState.isFinished = true ∧
          ∃ event ∈ events, event.nodeId = some node) := by
  induction events generalizing s with
  | nil => exact ⟨s, .nil s, rfl, rfl, fun node => Or.inl ⟨rfl, fun _ h => nomatch h⟩⟩
  | cons event rest ih =>
    obtain ⟨node, hnode⟩ := Option.isSome_iff_exists.mp (hnamed event (List.mem_cons_self ..))
    have hfilter : (event :: rest).filter (fun e => e.nodeId = some node) =
        event :: rest.filter fun e => e.nodeId = some node := by
      simp [hnode]
    have hown := hcoming node
    rw [hfilter] at hown
    obtain ⟨hr, hgates, hothers, hnext, hlast⟩ := coming_step hown hnode
    -- what is to come of every other node is to come still
    have hcoming' : ∀ a, Coming (s.taken event) a
        (rest.filter fun e => e.nodeId = some a) := by
      intro a
      by_cases ha : a = node
      · rw [ha]
        exact hnext
      · have hskip : (event :: rest).filter (fun e => e.nodeId = some a) =
            rest.filter fun e => e.nodeId = some a := by
          have hne : event.nodeId ≠ some a := by
            rw [hnode]
            exact fun h => ha (Option.some.inj h).symm
          simp [hne]
        have hsame := hcoming a
        rw [hskip] at hsame
        generalize rest.filter (fun e => e.nodeId = some a) = coming at hsame ⊢
        cases hsame with
        | nothing => exact .nothing
        | finish hp hrunning =>
          refine .finish hp ?_
          rw [RunState.isRunning, hothers a ha]
          exact hrunning
        | attempt hp hq => exact .attempt hp hq
    obtain ⟨t, hsteps, hbroken, hgates', hstates⟩ :=
      ih hcoming' fun e he => hnamed e (List.mem_cons_of_mem _ he)
    refine ⟨t, .cons (RunState.apply_ok_iff.mpr ⟨hr, rfl⟩) hsteps,
      hbroken.trans (RunState.taken_frame hr).2.2, hgates'.trans hgates, ?_⟩
    intro a
    by_cases ha : a = node
    · subst ha
      refine Or.inr ⟨?_, event, List.mem_cons_self .., hnode⟩
      rcases hstates a with ⟨hsame, hnone⟩ | ⟨hdone, -⟩
      · -- its last event was this one
        have hempty : rest.filter (fun e => e.nodeId = some a) = [] := by
          rw [List.filter_eq_nil_iff]
          intro e he
          simpa using hnone e he
        rw [hsame]
        exact hlast hempty
      · exact hdone
    · rcases hstates a with ⟨hsame, hnone⟩ | ⟨hdone, e, he, hea⟩
      · refine Or.inl ⟨hsame.trans (hothers a ha), ?_⟩
        intro e he
        rcases List.mem_cons.mp he with rfl | he
        · rw [hnode]
          exact fun h => ha (Option.some.inj h).symm
        · exact hnone e he
      · exact Or.inr ⟨hdone, e, List.mem_cons_of_mem _ he, hea⟩

/-! ## One turn -/

/-- The graphs the loop runs without a person, a failure's choice or a measurement: no gate, no
    invariant that judges the tree, no suite to measure, over unique ids and dependencies that name
    nodes the loop can run. -/
structure Plain (workflow : Workflow) (policy : Policy) : Prop where
  unique : (workflow.nodes.map (·.id)).Nodup
  acyclic : workflow.Acyclic
  deps : workflow.DepsMet policy fun _ => false
  noGate : ∀ node ∈ workflow.nodes, isGate node = false
  noVerifier : ∀ node ∈ workflow.nodes, node.verifiesTheTree = false
  noBaseline : policy.baselineSuite = none

/-- A node the loop runs: a top-level node the mode includes, and no target of a reroute only. -/
def Scheduled (workflow : Workflow) (policy : Policy) (id : NodeId) : Prop :=
  ∃ node ∈ workflow.nodes, node.id = id ∧ isIncluded policy.modeNodes id = true ∧
    id ∉ (Board.of workflow {} policy).rerouteOnly

/-- Exactly the nodes `ran` have a state, each of them finished, and no question was answered. -/
structure RanOnly (s : RunState) (ran : List NodeId) : Prop where
  broken : s.broken = none
  answered : ∀ id, s.gates.answered id = false
  finished : ∀ id ∈ ran, (s.nodes.state id).any NodeState.isFinished = true
  fresh : ∀ id, id ∉ ran → s.nodes.state id = none

/-- A batch that keeps the order: of distinct nodes none of which ran, up to the capacity,
    each with everything it waits on finished. -/
structure InOrder (workflow : Workflow) (policy : Policy) (s : RunState)
    (batch : List (NodeId × Nat)) : Prop where
  nonempty : batch ≠ []
  nodup : (batch.map (·.1)).Nodup
  capped : batch.length ≤ max policy.maxParallelNodes 1
  scheduled : ∀ member ∈ batch, Scheduled workflow policy member.1
  unstarted : ∀ member ∈ batch, s.nodes.state member.1 = none
  met : ∀ member ∈ batch,
    ∀ dep ∈ ((dependenciesInMode workflow policy.modeNodes)[member.1]?).getD [],
      (s.nodes.state dep).any NodeState.isFinished = true

section
variable {workflow : Workflow} {policy : Policy} {s : RunState} {ran : List NodeId}

theorem RanOnly.allFinished (h : RanOnly s ran) : AllFinished s := by
  intro id st hst
  by_cases hid : id ∈ ran
  · have hdone := h.finished id hid
    rw [hst] at hdone
    exact hdone
  · rw [h.fresh id hid] at hst
    cases hst

/-- The ready nodes are a batch in order. -/
theorem readyNodes_inOrder (h : Plain workflow policy) {d : Decision}
    (hready : readyNodes (Board.of workflow s policy) = some d) :
    ∃ batch, d = .execute batch ∧ InOrder workflow policy s batch := by
  unfold readyNodes at hready
  dsimp only at hready
  split at hready
  · cases hready
  next hempty =>
  obtain rfl := Option.some.inj hready
  refine ⟨_, rfl, ?_⟩
  have hmember : ∀ member ∈ List.map (fun node => (node.id, 1))
      (List.take (max policy.maxParallelNodes 1) ((Board.of workflow s policy).nodes.filter
        fun node => !isGate node && (Board.of workflow s policy).isFresh node)),
      ∃ node ∈ (Board.of workflow s policy).nodes, member.1 = node.id ∧
        (Board.of workflow s policy).isFresh node = true := by
    intro member hmem
    obtain ⟨node, hnode, rfl⟩ := List.mem_map.mp hmem
    have hfilter := List.mem_filter.mp (List.mem_of_mem_take hnode)
    exact ⟨node, hfilter.1, rfl, (Bool.and_eq_true _ _ ▸ hfilter.2).2⟩
  constructor
  · rintro hnil
    rw [hnil] at hempty
    exact hempty rfl
  · -- a batch lists nodes of the board in their own order, and ids are unique
    rw [List.map_map]
    have hsub : List.Sublist ((List.take (max policy.maxParallelNodes 1)
        ((Board.of workflow s policy).nodes.filter fun node =>
          !isGate node && (Board.of workflow s policy).isFresh node)).map (·.id))
        (workflow.nodes.map (·.id)) :=
      ((List.take_sublist ..).trans (List.filter_sublist.trans List.filter_sublist)).map _
    exact hsub.nodup h.unique
  · rw [List.length_map]
    exact List.length_take_le ..
  · intro member hmem
    obtain ⟨node, hnode, hid, hfresh⟩ := hmember member hmem
    obtain ⟨htop, hincluded⟩ := Board.mem_nodes.mp hnode
    simp only [Board.isFresh, Bool.and_eq_true, Bool.not_eq_true'] at hfresh
    have honly := hfresh.1.2
    rw [← Bool.not_eq_true, List.contains_iff_mem] at honly
    exact ⟨node, htop, hid.symm, by rw [hid]; exact hincluded, by rw [hid]; exact honly⟩
  · intro member hmem
    obtain ⟨node, -, hid, hfresh⟩ := hmember member hmem
    simp only [Board.isFresh, Bool.and_eq_true, Bool.not_eq_true'] at hfresh
    have hnone : s.nodes.hasState node.id = false := hfresh.1.1
    rw [NodeLedger.hasState, Option.isSome_eq_false_iff, Option.isNone_iff_eq_none] at hnone
    rw [hid]
    exact hnone
  · intro member hmem dep hdep
    obtain ⟨node, -, hid, hfresh⟩ := hmember member hmem
    simp only [Board.isFresh, Bool.and_eq_true, Board.depsSatisfied] at hfresh
    rw [hid] at hdep
    exact List.all_eq_true.mp hfresh.2 dep hdep

/-- **One turn**: over a plain graph whose nodes `ran` alone ran, the answer is a batch in order, or
    the end, with every node the loop schedules among them. -/
theorem plain_decides (h : Plain workflow policy) (hran : RanOnly s ran) :
    (∃ batch, decide workflow s policy = .execute batch ∧ InOrder workflow policy s batch) ∨
      (decide workflow s policy = .finish ∧ ∀ id, Scheduled workflow policy id → id ∈ ran) := by
  have hfinished : AllFinished (Board.of workflow s policy).state := hran.allFinished
  have hanswered : answeredStep (Board.of workflow s policy) = none := by
    unfold answeredStep
    rw [Option.map_eq_none_iff, List.find?_eq_none]
    intro node _
    have hnone : s.gates.answered node.id = false := hran.answered node.id
    show ¬ s.answeredUnfinished node.id = true
    simp [RunState.answeredUnfinished, hnone]
  have hreverify : reverifyStep (Board.of workflow s policy) = none := by
    have hempty : (Board.of workflow s policy).verifiers = [] := by
      unfold Board.verifiers
      rw [List.filter_eq_nil_iff]
      intro node hnode
      rw [h.noVerifier node (Board.mem_nodes.mp hnode).1]
      decide
    unfold reverifyStep
    rw [hempty]
    split <;> rfl
  have hnext : decide workflow s policy = readyBatch (Board.of workflow s policy) := by
    have howed : owedBaseline s policy = none := by simp [owedBaseline, h.noBaseline]
    simp only [decide, hran.broken, before, howed]
    exact Board.next_of_none hfinished.gateStep_none hfinished.waitingStep_none hanswered
      hfinished.orphanStep_none hfinished.failureStep_none hreverify
  have hgate : readyGate (Board.of workflow s policy) = none := by
    unfold readyGate
    rw [Option.map_eq_none_iff, List.find?_eq_none]
    intro node hnode
    simp [h.noGate node (Board.mem_nodes.mp hnode).1]
  rw [hnext, readyBatch, hgate]
  cases hready : readyNodes (Board.of workflow s policy) with
  | some d =>
    obtain ⟨batch, rfl, hbatch⟩ := readyNodes_inOrder h hready
    exact Or.inl ⟨batch, rfl, hbatch⟩
  | none =>
    right
    have hdeps : workflow.DepsMet policy (Board.of workflow s policy).finished := by
      intro node hnode hincluded dep hdep
      exact Or.inl ((h.deps node hnode hincluded dep hdep).resolve_right Bool.false_ne_true)
    have hfinish := nothingRunnable_finish h.acyclic hdeps hran.allFinished hgate hready
    refine ⟨hfinish, ?_⟩
    rintro id ⟨node, hnode, rfl, hincluded, honly⟩
    -- nothing is unfinished where the run ends, and what is finished ran
    have hdecide : decide workflow s policy = .finish := by
      rw [hnext, readyBatch, hgate, hready]
      exact hfinish
    rcases (decide_finish hdecide).1 node (Board.mem_nodes.mpr ⟨hnode, hincluded⟩) with
      hdone | ⟨hcontains, -⟩
    · by_contra hnot
      have hdone : (s.nodes.state node.id).any NodeState.isFinished = true := hdone
      rw [hran.fresh node.id hnot] at hdone
      cases hdone
    · exact absurd (List.contains_iff_mem.mp hcontains) honly

end

/-! ## The loop -/

/-- Steps that run each batch of distinct nodes whole, and end the run where it finishes. -/
structure RunsBatches (acts : Acts) : Prop where
  execute : ∀ log (batch : List (NodeId × Nat)), (batch.map (·.1)).Nodup →
    ∃ events, acts log (.execute batch) = some events ∧ RanBatch batch events
  finish : ∀ log, acts log .finish = none

/-- The nodes a turn executes. -/
def Turn.executes (turn : Turn) : List NodeId :=
  match turn.decision with
  | .execute batch => batch.map (·.1)
  | _ => []

/-- Every node the loop executed, as often as it did. -/
def Driven.executed (driven : Driven) : List NodeId := driven.turns.flatMap Turn.executes

section
variable {workflow : Workflow} {policy : Policy} {log : List StoredEvent} {ran : List NodeId}

/-- What a batch in order leaves: its members join the nodes that ran. -/
theorem RanOnly.batch (h : RanOnly (derive log) ran) {batch : List (NodeId × Nat)}
    {events : List StoredEvent} (hran : RanBatch batch events) :
    RanOnly (derive (log ++ events)) (ran ++ batch.map (·.1)) := by
  have hcoming : ∀ node, Coming (derive log) node
      (events.filter fun event => event.nodeId = some node) := by
    intro node
    by_cases hmember : ∃ member ∈ batch, member.1 = node
    · obtain ⟨member, hmem, rfl⟩ := hmember
      obtain ⟨started, finished, p, q, hevents, hp, -, hq⟩ := hran.each member hmem
      rw [hevents]
      exact .attempt hp hq
    · have hnone : events.filter (fun event => event.nodeId = some node) = [] := by
        rw [List.filter_eq_nil_iff]
        intro event hevent hnode
        obtain ⟨member, hmem, hid⟩ := hran.only event hevent
        exact hmember ⟨member, hmem, Option.some.inj (hid.symm.trans (of_decide_eq_true hnode))⟩
      rw [hnone]
      exact .nothing
  have hnamed : ∀ event ∈ events, event.nodeId.isSome := by
    intro event hevent
    obtain ⟨member, -, hid⟩ := hran.only event hevent
    rw [hid]
    rfl
  obtain ⟨t, hsteps, hbroken, hgates, hstates⟩ := coming_run hcoming hnamed
  have hderive : derive (log ++ events) = t :=
    RunState.derive_of_steps ((RunState.steps_of_accepted h.broken).append hsteps)
  rw [hderive]
  constructor
  · exact hbroken.trans h.broken
  · intro id
    rw [hgates]
    exact h.answered id
  · intro id hid
    rcases hstates id with ⟨hsame, hnone⟩ | ⟨hdone, -⟩
    · rcases List.mem_append.mp hid with hid | hid
      · rw [hsame]
        exact h.finished id hid
      · -- a member has events of its own
        obtain ⟨member, hmem, rfl⟩ := List.mem_map.mp hid
        obtain ⟨started, finished, p, q, hevents, -⟩ := hran.each member hmem
        have hin : started ∈ events.filter fun event => event.nodeId = some member.1 := by
          rw [hevents]
          exact List.mem_cons_self ..
        obtain ⟨hstarted, hnode⟩ := List.mem_filter.mp hin
        exact absurd (of_decide_eq_true hnode) (hnone started hstarted)
    · exact hdone
  · intro id hid
    rcases hstates id with ⟨hsame, -⟩ | ⟨-, event, hevent, hnode⟩
    · rw [hsame]
      exact h.fresh id fun hran => hid (List.mem_append_left _ hran)
    · obtain ⟨member, hmem, hmember⟩ := hran.only event hevent
      refine absurd (List.mem_append_right _ ?_) hid
      exact List.mem_map.mpr ⟨member, hmem, Option.some.inj (hmember.symm.trans hnode)⟩

/-- Distinct nodes the loop schedules are no more than the workflow has. -/
theorem length_le_of_scheduled {ids : List NodeId} (hnodup : ids.Nodup)
    (h : ∀ id ∈ ids, Scheduled workflow policy id) : ids.length ≤ workflow.nodes.length := by
  have hsub : ids ⊆ workflow.nodes.map (·.id) := by
    intro id hid
    obtain ⟨node, hnode, hnodeId, -⟩ := h id hid
    exact List.mem_map.mpr ⟨node, hnode, hnodeId⟩
  have hle := (hnodup.subperm hsub).length_le
  rwa [List.length_map] at hle

/-- A batch in order joins the nodes that ran without a duplicate. -/
theorem RanOnly.join (h : RanOnly (derive log) ran) (hnodup : ran.Nodup)
    (hscheduled : ∀ id ∈ ran, Scheduled workflow policy id) {batch : List (NodeId × Nat)}
    (hbatch : InOrder workflow policy (derive log) batch) :
    (ran ++ batch.map (·.1)).Nodup ∧
      ∀ id ∈ ran ++ batch.map (·.1), Scheduled workflow policy id := by
  constructor
  · refine hnodup.append hbatch.nodup ?_
    intro id hid hmem
    obtain ⟨member, hmember, rfl⟩ := List.mem_map.mp hmem
    have hdone := h.finished _ hid
    rw [hbatch.unstarted member hmember] at hdone
    cases hdone
  · intro id hid
    rcases List.mem_append.mp hid with hid | hid
    · exact hscheduled id hid
    · obtain ⟨member, hmember, rfl⟩ := List.mem_map.mp hid
      exact hbatch.scheduled member hmember

/-- **The loop from any point of a plain run**: it ends, what ran before and what it executes are
    together exactly the nodes it schedules, each once, and every turn is a batch in order. -/
theorem drive_ran (h : Plain workflow policy) {acts : Acts} (hacts : RunsBatches acts) (fuel : Nat)
    (hran : RanOnly (derive log) ran) (hnodup : ran.Nodup)
    (hscheduled : ∀ id ∈ ran, Scheduled workflow policy id)
    (hfuel : workflow.nodes.length ≤ fuel + ran.length) :
    (drive workflow policy acts fuel log).answer = .finish ∧
      (ran ++ (drive workflow policy acts fuel log).executed).Nodup ∧
      (∀ id, id ∈ ran ++ (drive workflow policy acts fuel log).executed ↔
        Scheduled workflow policy id) ∧
      ∀ turn ∈ (drive workflow policy acts fuel log).turns, ∃ batch,
        turn.decision = .execute batch ∧ InOrder workflow policy (derive turn.log) batch := by
  induction fuel generalizing log ran with
  | zero =>
    rcases plain_decides h hran with ⟨batch, -, hbatch⟩ | ⟨hfinish, hall⟩
    · obtain ⟨hnodup', hscheduled'⟩ := hran.join hnodup hscheduled hbatch
      have hle := length_le_of_scheduled hnodup' hscheduled'
      have hpos := List.length_pos_iff.mpr hbatch.nonempty
      rw [List.length_append, List.length_map] at hle
      omega
    · refine ⟨hfinish, ?_, ?_, fun turn hturn => absurd hturn List.not_mem_nil⟩
      · simpa [drive, Driven.executed] using hnodup
      · intro id
        simp only [drive, Driven.executed, List.flatMap_nil, List.append_nil]
        exact ⟨hscheduled id, hall id⟩
  | succ fuel ih =>
    rcases plain_decides h hran with ⟨batch, hdecide, hbatch⟩ | ⟨hfinish, hall⟩
    · obtain ⟨hnodup', hscheduled'⟩ := hran.join hnodup hscheduled hbatch
      obtain ⟨events, hact, hevents⟩ := hacts.execute log batch hbatch.nodup
      have hpos := List.length_pos_iff.mpr hbatch.nonempty
      have hran' := hran.batch hevents
      have hfuel' : workflow.nodes.length ≤ fuel + (ran ++ batch.map (·.1)).length := by
        rw [List.length_append, List.length_map]
        omega
      obtain ⟨hend, hnodup'', hmem, hturns⟩ := ih hran' hnodup' hscheduled' hfuel'
      have hexecuted : (drive workflow policy acts (fuel + 1) log).executed =
          batch.map (·.1) ++ (drive workflow policy acts fuel (log ++ events)).executed := by
        rw [drive_go (hdecide ▸ hact)]
        simp [Driven.executed, Turn.executes, hdecide]
      rw [hexecuted, ← List.append_assoc, drive_go (hdecide ▸ hact)]
      refine ⟨hend, hnodup'', hmem, ?_⟩
      intro turn hturn
      rcases List.mem_cons.mp hturn with rfl | hturn
      · exact ⟨batch, hdecide, hbatch⟩
      · exact hturns turn hturn
    · have hstop := @drive_stop _ _ _ (fuel + 1) _ (hfinish ▸ hacts.finish log)
      rw [hstop]
      refine ⟨hfinish, ?_, ?_, fun turn hturn => absurd hturn List.not_mem_nil⟩
      · simpa [Driven.executed] using hnodup
      · intro id
        simp only [Driven.executed, List.flatMap_nil, List.append_nil]
        exact ⟨hscheduled id, hall id⟩

/-- **The loop runs the whole graph in dependency order**: from a run that has started nothing, it
    ends in `finish`; every node it schedules is executed exactly once and no other node ever; and
    each turn is a batch of distinct nodes within the capacity, whose dependencies had finished. -/
theorem drive_in_order (h : Plain workflow policy) {acts : Acts} (hacts : RunsBatches acts)
    (hlog : RanOnly (derive log) []) {fuel : Nat} (hfuel : workflow.nodes.length ≤ fuel) :
    (drive workflow policy acts fuel log).answer = .finish ∧
      (∀ id, (Scheduled workflow policy id →
          (drive workflow policy acts fuel log).executed.count id = 1) ∧
        (¬ Scheduled workflow policy id →
          (drive workflow policy acts fuel log).executed.count id = 0)) ∧
      ∀ turn ∈ (drive workflow policy acts fuel log).turns, ∃ batch,
        turn.decision = .execute batch ∧ InOrder workflow policy (derive turn.log) batch := by
  obtain ⟨hend, hnodup, hmem, hturns⟩ := drive_ran h hacts fuel hlog List.nodup_nil
    (fun id hid => nomatch hid) (by simpa using hfuel)
  rw [List.nil_append] at hnodup hmem
  refine ⟨hend, ?_, hturns⟩
  intro id
  constructor
  · intro hid
    exact List.count_eq_one_of_mem hnodup ((hmem id).mpr hid)
  · intro hid
    exact List.count_eq_zero_of_not_mem fun hin => hid ((hmem id).mp hin)

end

/-! ## Steps that run each member in turn -/

/-- One attempt that finished at once. -/
def ranAtOnce (member : NodeId × Nat) : List StoredEvent :=
  [⟨"", 0, 0, some member.1, .known (.node (.started ⟨member.2, none, none⟩))⟩,
    ⟨"", 0, 0, some member.1, .known (.node (.finished {}))⟩]

/-- Every member run to its end, one after the other. -/
def runEach (log : List StoredEvent) : Decision → Option (List StoredEvent)
  | .execute batch => some (batch.flatMap ranAtOnce)
  | _ => none

/-- The events of one member are its own, where no other member has its id. -/
theorem filter_ranAtOnce {batch : List (NodeId × Nat)} (hnodup : (batch.map (·.1)).Nodup)
    {member : NodeId × Nat} (hmem : member ∈ batch) :
    (batch.flatMap ranAtOnce).filter (fun event => event.nodeId = some member.1) =
      ranAtOnce member := by
  induction batch with
  | nil => cases hmem
  | cons first rest ih =>
    rw [List.map_cons, List.nodup_cons] at hnodup
    rw [List.flatMap_cons, List.filter_append]
    rcases List.mem_cons.mp hmem with rfl | hrest
    · have hnone : (rest.flatMap ranAtOnce).filter
          (fun event => event.nodeId = some member.1) = [] := by
        rw [List.filter_eq_nil_iff]
        intro event hevent
        obtain ⟨other, hother, hin⟩ := List.mem_flatMap.mp hevent
        have hid : event.nodeId = some other.1 := by
          simp only [ranAtOnce, List.mem_cons, List.not_mem_nil, or_false] at hin
          rcases hin with rfl | rfl <;> rfl
        have hne : other.1 ≠ member.1 :=
          fun he => hnodup.1 (he ▸ List.mem_map.mpr ⟨other, hother, rfl⟩)
        simp [hid, hne]
      rw [hnone]
      simp [ranAtOnce]
    · have hne : first.1 ≠ member.1 :=
        fun he => hnodup.1 (he ▸ List.mem_map.mpr ⟨member, hrest, rfl⟩)
      rw [ih hnodup.2 hrest]
      simp [ranAtOnce, hne]

theorem runEach_runsBatches : RunsBatches runEach where
  execute := by
    intro log batch hnodup
    refine ⟨_, rfl, ?_, ?_⟩
    · intro member hmem
      rw [filter_ranAtOnce hnodup hmem]
      exact ⟨_, _, _, _, rfl, rfl, rfl, rfl⟩
    · intro event hevent
      obtain ⟨member, hmem, hin⟩ := List.mem_flatMap.mp hevent
      refine ⟨member, hmem, ?_⟩
      simp only [ranAtOnce, List.mem_cons, List.not_mem_nil, or_false] at hin
      rcases hin with rfl | rfl <;> rfl
  finish := fun log => rfl

/-- A node that waits on two, one of which a mode leaves out. -/
def joinWorkflow : Workflow :=
  ⟨[⟨"c", .bash, ["a", "b"], none, none, none, false, .unscoped⟩,
    ⟨"a", .bash, [], none, none, none, false, .unscoped⟩,
    ⟨"b", .bash, ["a"], none, none, none, false, .unscoped⟩]⟩

/-- The mode that leaves `b` out. -/
def leftOutPolicy : Policy := { maxParallelNodes := 2, modeNodes := some ["a", "c"] }

theorem drive_in_order_join :
    (drive joinWorkflow leftOutPolicy runEach 3 []).answer = .finish ∧
      (drive joinWorkflow leftOutPolicy runEach 3 []).executed.count "b" = 0 := by
  have hplain : Plain joinWorkflow leftOutPolicy :=
    { unique := by decide
      acyclic := Workflow.acyclic_of_rank
        (fun id => if id = "c" then 2 else if id = "b" then 1 else 0) (by decide)
      deps := by decide +kernel
      noGate := by decide
      noVerifier := by decide
      noBaseline := rfl }
  have hrun := @drive_in_order _ _ [] hplain _ runEach_runsBatches
    ⟨rfl, fun id => rfl, fun id hid => absurd hid List.not_mem_nil, fun id _ => rfl⟩ 3 (by decide)
  refine ⟨hrun.1, (hrun.2.1 "b").2 ?_⟩
  rintro ⟨node, -, -, hincluded, -⟩
  exact absurd hincluded (by decide)

/-- The loop blocks on a node that waits on a group's child: only the group's own execution writes
    what the child did, so a start and a finish of each node of the batch never meet it. -/
theorem not_drive_in_order :
    (childWorkflow.iterNodes.map (·.id)).Nodup ∧ childWorkflow.Acyclic ∧
      (∀ node ∈ childWorkflow.iterNodes, isGate node = false ∧ node.verifiesTheTree = false) ∧
      RunsBatches runEach ∧
      ∀ fuel, (drive childWorkflow onePolicy runEach (fuel + 1) []).answer =
        .pause (.blocked "b" ["child"]) := by
  refine ⟨by decide, Workflow.acyclic_of_rank (fun id => if id = "b" then 1 else 0) (by decide),
    by decide, runEach_runsBatches, ?_⟩
  intro fuel
  have hfirst : decide childWorkflow (derive []) onePolicy = .execute [("a", 1)] := by
    decide +kernel
  have hblocked : decide childWorkflow (derive (ranAtOnce ("a", 1))) onePolicy =
      .pause (.blocked "b" ["child"]) := by
    decide +kernel
  rw [@drive_go _ _ _ _ _ (ranAtOnce ("a", 1)) (by rw [hfirst]; rfl)]
  show (drive childWorkflow onePolicy runEach fuel (ranAtOnce ("a", 1))).answer = _
  rw [drive_stop (by rw [hblocked]; rfl)]
  exact hblocked

end Yunta
