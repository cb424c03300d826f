/-
  A choice to run a failed node again starts the node once.

  1. **What a question leaves** — `Kept`: a question asked and answered at a node's gate, and a
     measurement, leave every node but its working time, so the board turns to the same failure
     with the same menu (`Kept.earlier`, `Kept.failureOf_none`, `Kept.leftTo`).

  2. **The start** — `decide_again`: where a person chose off that menu to run the node again, the
     scheduler starts it, after the measurement it waits for.

  3. **After the start** — `Spent`: an attempt that starts closes the window of the choice, whatever
     comes after, since the node fails again only past the choice.

  4. **Main result** — `choices_acted_on_once`: what the run reads of a decision is its window in
     the log, and the loop driven from the choice starts the node once for it.  An answer about a
     task asked after the choice leaves it, and a `retry` of exhausted reroutes reroutes instead
     (`not_choices_acted_on_once`).
-/
import Yunta.Run.Choices
import Yunta.Run.Rerouted
import Yunta.Schedule.Drive

set_option linter.unusedVariables false

namespace Yunta

/-! ## What a question leaves -/

namespace NodeRecord

/-- A record without its working time. -/
def atRest (r : NodeRecord) : NodeRecord :=
  { r with workingSince := none, active := 0, attemptActive := 0 }

@[simp] theorem resume_atRest (r : NodeRecord) (at_ : Int) : (r.resume at_).atRest = r.atRest := by
  unfold resume
  split <;> rfl

end NodeRecord

/-- What waits for what reads only what the board waits on. -/
theorem Board.waitsFor_congr (board board' : Board) (h : board'.dependencies = board.dependencies)
    (on : NodeId) (fuel : Nat) (stack seen : List NodeId) :
    board'.waitsFor on fuel stack seen = board.waitsFor on fuel stack seen := by
  induction fuel generalizing stack seen with
  | zero => rfl
  | succ fuel ih =>
    cases stack with
    | nil => rfl
    | cons dep stack =>
      unfold waitsFor
      rw [ih, ih, depsOf, h, depsOf]

/-- A correction leaves nothing to do where a node after it failed on its own, or it failed
    itself. -/
theorem Board.afterReroute_eq_none {board : Board} {node : Node} {goto : NodeId} {seq : Nat} :
    board.afterReroute node goto seq = none ↔
      match ((board.state.nodes.get goto).getD {}).lastFinished.filter (seq < ·) with
      | some corrected => board.staleBetween goto node.id corrected = some .failed
      | none => ((board.state.nodes.get goto).getD {}).lastFailed.any (seq < ·) = true := by
  unfold afterReroute
  dsimp only
  cases ((board.state.nodes.get goto).getD {}).lastFinished.filter (seq < ·) with
  | none =>
    dsimp only
    cases ((board.state.nodes.get goto).getD {}).lastFailed.any (seq < ·) <;> simp
  | some corrected =>
    dsimp only
    cases board.staleBetween goto node.id corrected with
    | none => cases isGate node <;> simp
    | some stale =>
      cases stale with
      | failed => simp
      | rerun id =>
        dsimp only
        split
        · split <;> simp
        · simp

/-- Under a policy that pauses, a failure asks for nothing only where it was rerouted and its
    correction left nothing to do. -/
theorem Board.failureOf_eq_none {board : Board} (hpause : board.policy.onFailure = .pause)
    {node : Node} :
    board.failureOf node = none ↔
      ∀ failure tokens, board.state.nodes.state node.id = some (.failed failure tokens) →
        ∃ reroute, ((board.state.marks node.id).lastReroute.filter fun reroute =>
            (board.state.marks node.id).lastFailed.all (· < reroute.seq)) = some reroute ∧
          board.afterReroute node reroute.toNode reroute.seq = none := by
  have hasks (failure : Failure) (reroutes : Nat) (failedAt : Int) :
      board.unrerouted node failure reroutes failedAt ≠ none := by
    unfold unrerouted
    dsimp only
    split
    · split <;> simp
    · rw [hpause]
      simp
  unfold failureOf
  split
  · next failure tokens hstate =>
    have hmarks : ((board.state.nodes.get node.id).getD {}).lastReroute.filter (fun reroute =>
        ((board.state.nodes.get node.id).getD {}).lastFailed.all (· < reroute.seq)) =
        (board.state.marks node.id).lastReroute.filter fun reroute =>
          (board.state.marks node.id).lastFailed.all (· < reroute.seq) := rfl
    dsimp only
    rw [hmarks]
    cases hreroute : (board.state.marks node.id).lastReroute.filter fun reroute =>
        (board.state.marks node.id).lastFailed.all (· < reroute.seq) with
    | none => simp [hasks, hstate]
    | some reroute => simp [hstate]
  · next hother =>
    exact ⟨fun _ failure tokens hstate => (hother failure tokens hstate).elim, fun _ => rfl⟩

theorem Board.earlier_eq_none {board : Board} :
    board.earlier = none ↔ gateStep board = none ∧ waitingStep board = none ∧
      answeredStep board = none ∧ orphanStep board = none := by
  unfold Board.earlier
  rw [Option.orElse_eq_none, Option.orElse_eq_none, Option.orElse_eq_none]

/-- Whether an event records what the run measured. -/
def measures (event : StoredEvent) : Bool :=
  match event.payload with
  | some (.run (.baselineCaptured _)) | some (.run (.baselineHeld _)) => true
  | _ => false

namespace RunState

/-- Two states that differ in their nodes' working time, in what their gates ask and were answered,
    and in what the run measured. -/
structure Kept (s t : RunState) : Prop where
  nodes : ∀ a, (t.nodes.get a).map NodeRecord.atRest = (s.nodes.get a).map NodeRecord.atRest
  rounds : ∀ a, (t.gateRecord a).rounds = (s.gateRecord a).rounds
  tasks : t.tasks = s.tasks
  wokeOn : t.run.wokeOn = s.run.wokeOn

namespace Kept

variable {s t : RunState}

theorem trans {u : RunState} (h : Kept s t) (h' : Kept t u) : Kept s u where
  nodes a := (h'.nodes a).trans (h.nodes a)
  rounds a := (h'.rounds a).trans (h.rounds a)
  tasks := h'.tasks.trans h.tasks
  wokeOn := h'.wokeOn.trans h.wokeOn

/-- What a record holds beside its working time, two such states hold alike. -/
theorem map_get {β : Type} (h : Kept s t) {f : NodeRecord → β} (hf : ∀ r, f r.atRest = f r)
    (a : NodeId) : (t.nodes.get a).map f = (s.nodes.get a).map f := by
  have hmap (o : Option NodeRecord) : o.map f = (o.map NodeRecord.atRest).map f := by
    cases o with
    | none => rfl
    | some r => exact congrArg some (hf r).symm
  rw [hmap, hmap (s.nodes.get a), h.nodes]

theorem bind_get {β : Type} (h : Kept s t) {f : NodeRecord → Option β}
    (hf : ∀ r, f r.atRest = f r) (a : NodeId) :
    (t.nodes.get a).bind f = (s.nodes.get a).bind f := by
  have hbind (o : Option NodeRecord) : o.bind f = (o.map f).join := by cases o <;> rfl
  rw [hbind, hbind (s.nodes.get a), h.map_get hf]

theorem any_get (h : Kept s t) {f : NodeRecord → Bool} (hf : ∀ r, f r.atRest = f r) (a : NodeId) :
    (t.nodes.get a).any f = (s.nodes.get a).any f := by
  have hany (o : Option NodeRecord) : o.any f = (o.map f).any id := by cases o <;> rfl
  rw [hany, hany (s.nodes.get a), h.map_get hf]

theorem getD_get {β : Type} (h : Kept s t) {f : NodeRecord → β} (hf : ∀ r, f r.atRest = f r)
    (a : NodeId) : f ((t.nodes.get a).getD {}) = f ((s.nodes.get a).getD {}) := by
  have hget := h.map_get hf a
  cases hs : s.nodes.get a with
  | none =>
    rw [hs, Option.map_none, Option.map_eq_none_iff] at hget
    rw [hget]
  | some r =>
    rw [hs, Option.map_some, Option.map_eq_some_iff] at hget
    obtain ⟨r', hr', hf'⟩ := hget
    rw [hr']
    exact hf'

@[simp] theorem state (h : Kept s t) (a : NodeId) : t.nodes.state a = s.nodes.state a :=
  h.bind_get (fun _ => rfl) a

theorem marks (h : Kept s t) (a : NodeId) : t.marks a = s.marks a :=
  h.getD_get (f := NodeRecord.marks) (fun _ => rfl) a

/-- The trees the nodes recorded stay. -/
theorem treeRecords (h : Kept s t) (countsClose : NodeId → Bool) :
    t.nodes.treeRecords countsClose = s.nodes.treeRecords countsClose := by
  have hmaps : t.nodes.perNode.map (fun _ r => r.atRest) =
      s.nodes.perNode.map fun _ r => r.atRest := by
    refine Std.ExtTreeMap.ext_getElem? fun a => ?_
    rw [Std.ExtTreeMap.getElem?_map, Std.ExtTreeMap.getElem?_map]
    exact h.nodes a
  have hreads (l : NodeLedger) : l.treeRecords countsClose =
      (⟨l.perNode.map fun _ r => r.atRest, l.tally⟩ : NodeLedger).treeRecords countsClose := by
    unfold NodeLedger.treeRecords
    rw [Std.ExtTreeMap.toList_map, List.flatMap_map]
    rfl
  rw [hreads t.nodes, hreads s.nodes, hmaps]
  rfl

theorem treeMoved (h : Kept s t) (a : NodeId) :
    t.treeMovedSinceFailure a = s.treeMovedSinceFailure a := by
  unfold treeMovedSinceFailure newestTree NodeLedger.latestTree
  rw [h.treeRecords, h.wokeOn, h.bind_get (f := (·.failedTree)) fun _ => rfl]

/-- The rounds of questions a node's close still owes a terminal stay. -/
theorem answeredUnfinished (h : Kept s t) (a : NodeId) :
    t.answeredUnfinished a = s.answeredUnfinished a := by
  have hrounds (u : RunState) : (u.gates.get a).bind (·.rounds.getLast?) =
      (u.gateRecord a).rounds.getLast? := by
    unfold gateRecord
    cases u.gates.get a <;> rfl
  unfold RunState.answeredUnfinished GateLedger.answered
  rw [hrounds t, hrounds s, h.rounds]
  dsimp only
  rw [h.any_get fun _ => rfl]

/-! ### The board's questions -/

section
variable (workflow : Workflow) (policy : Policy)

theorem isRunning (h : Kept s t) : t.isRunning = s.isRunning := by
  funext id
  rw [RunState.isRunning, h.state, RunState.isRunning]

theorem nextAttempt (h : Kept s t) :
    (Board.of workflow t policy).nextAttempt = (Board.of workflow s policy).nextAttempt := by
  funext id
  have hattempts := h.map_get (f := (·.attempts)) (fun _ => rfl) id
  exact congrArg (fun attempts => attempts.getD 0 + 1) hattempts

/-- Where no question comes before the failures, none does. -/
theorem earlier (h : Kept s t) (hs : (Board.of workflow s policy).earlier = none) :
    (Board.of workflow t policy).earlier = none := by
  have hgate : gateStep (Board.of workflow s policy) = none →
      gateStep (Board.of workflow t policy) = none := by
    intro hnone
    rw [gateStep, Option.map_eq_none_iff, List.find?_eq_none] at hnone ⊢
    intro node hmem
    show ¬ (isGate node && t.isRunning node.id) = true
    rw [h.isRunning]
    exact hnone node hmem
  have hwaiting : waitingStep (Board.of workflow t policy) =
      waitingStep (Board.of workflow s policy) := by
    have hstate : t.nodes.state = s.nodes.state := funext h.state
    unfold waitingStep Board.of
    dsimp only
    rw [hstate]
  have hanswered : answeredStep (Board.of workflow t policy) =
      answeredStep (Board.of workflow s policy) := by
    have hunfinished : t.answeredUnfinished = s.answeredUnfinished := funext h.answeredUnfinished
    unfold answeredStep Board.of
    dsimp only
    rw [hunfinished]
  have horphan : orphanStep (Board.of workflow t policy) =
      orphanStep (Board.of workflow s policy) := by
    have hpolicies (nodes : List Node) (default_ : OnInterrupt) :
        resumePolicies nodes t default_ = resumePolicies nodes s default_ := by
      unfold resumePolicies
      rw [h.isRunning]
    unfold orphanStep
    rw [h.nextAttempt]
    dsimp only [Board.of]
    rw [hpolicies]
  rw [Board.earlier_eq_none] at hs ⊢
  obtain ⟨hgates, hwaits, hanswers, horphans⟩ := hs
  exact ⟨hgate hgates, hwaiting.trans hwaits, hanswered.trans hanswers, horphan.trans horphans⟩

/-- Where a correction left nothing to do, it leaves nothing to do. -/
theorem afterReroute_none (h : Kept s t) {node : Node} {goto : NodeId} {seq : Nat}
    (hs : (Board.of workflow s policy).afterReroute node goto seq = none) :
    (Board.of workflow t policy).afterReroute node goto seq = none := by
  have hdepends : (Board.of workflow t policy).dependsOn =
      (Board.of workflow s policy).dependsOn := by
    funext id on
    exact Board.waitsFor_congr (Board.of workflow s policy) (Board.of workflow t policy) rfl on
      _ _ _
  have hbetween : (Board.of workflow t policy).between = (Board.of workflow s policy).between := by
    unfold Board.between
    rw [hdepends]
    rfl
  have hsince : (Board.of workflow t policy).staleSince =
      (Board.of workflow s policy).staleSince := by
    funext corrected id
    exact congrArg (fun finished => finished.all (· < corrected))
      (h.bind_get (f := (·.lastFinished)) (fun _ => rfl) id)
  have hstale : (Board.of workflow t policy).staleBetween =
      (Board.of workflow s policy).staleBetween := by
    funext goto failed corrected
    have hfailed (id : NodeId) : ((t.nodes.get id).bind (·.lastFailed)) =
        (s.nodes.get id).bind (·.lastFailed) := h.bind_get (fun _ => rfl) id
    unfold Board.staleBetween
    rw [hbetween, hsince]
    dsimp only [Board.of]
    simp only [hfailed]
    rfl
  rw [Board.afterReroute_eq_none] at hs ⊢
  have hfinished : ((t.nodes.get goto).getD {}).lastFinished =
      ((s.nodes.get goto).getD {}).lastFinished :=
    h.getD_get (f := (·.lastFinished)) (fun _ => rfl) goto
  have hfailed : ((t.nodes.get goto).getD {}).lastFailed =
      ((s.nodes.get goto).getD {}).lastFailed :=
    h.getD_get (f := (·.lastFailed)) (fun _ => rfl) goto
  rw [show (Board.of workflow t policy).state = t from rfl, hfinished, hfailed, hstale]
  exact hs

/-- A failure that asks for nothing under a policy that pauses asks for nothing still. -/
theorem failureOf_none (h : Kept s t) (hpause : policy.onFailure = .pause) {node : Node}
    (hs : (Board.of workflow s policy).failureOf node = none) :
    (Board.of workflow t policy).failureOf node = none := by
  rw [Board.failureOf_eq_none hpause] at hs ⊢
  intro failure tokens hstate
  obtain ⟨reroute, hreroute, hleft⟩ := hs failure tokens ((h.state node.id).symm.trans hstate)
  refine ⟨reroute, ?_, h.afterReroute_none workflow policy hleft⟩
  rw [← hreroute]
  exact congrArg (fun marks : Marks => marks.lastReroute.filter fun reroute =>
    marks.lastFailed.all (· < reroute.seq)) (h.marks node.id)

/-- The failure left to a person stays left to them, with the same menu. -/
theorem leftTo (h : Kept s t) (node : Node) :
    (Board.of workflow t policy).leftTo node = (Board.of workflow s policy).leftTo node := by
  have hfacts (failure : Failure) (failedAt : Int) :
      (Board.of workflow t policy).factsOf node failure failedAt =
        (Board.of workflow s policy).factsOf node failure failedAt := by
    unfold Board.factsOf
    rw [show (Board.of workflow t policy).state = t from rfl, h.tasks, h.treeMoved]
    rfl
  have hreroute : ((t.nodes.get node.id).getD {}).lastReroute =
      ((s.nodes.get node.id).getD {}).lastReroute :=
    h.getD_get (f := (·.lastReroute)) (fun _ => rfl) node.id
  have hfailed : ((t.nodes.get node.id).getD {}).lastFailed =
      ((s.nodes.get node.id).getD {}).lastFailed :=
    h.getD_get (f := (·.lastFailed)) (fun _ => rfl) node.id
  have hterminal : ((t.nodes.get node.id).getD {}).lastTerminalAt =
      ((s.nodes.get node.id).getD {}).lastTerminalAt :=
    h.getD_get (f := (·.lastTerminalAt)) (fun _ => rfl) node.id
  unfold Board.leftTo
  simp only [hfacts]
  rw [show (Board.of workflow t policy).state = t from rfl, h.state, hreroute, hfailed, hterminal]
  rfl

end

end Kept

/-! ### What leaves the nodes -/

/-- A record a question parked and its answer restored is the record it was, at rest. -/
theorem restored_atRest (r : NodeRecord) (wait : NodeState) (stopped resumed : Int)
    (asleep : Suspensions) :
    (({ ({ r with state := some wait } : NodeRecord).closeWorking stopped asleep with
      state := r.state } : NodeRecord).resume resumed).atRest = r.atRest := by
  rw [NodeRecord.resume_atRest]
  unfold NodeRecord.closeWorking
  split <;> rfl

/-- An event that asks no round of questions and answers none leaves the rounds. -/
theorem taken_rounds {s : RunState} {event : StoredEvent} (hr : s.refuse event = .ok ())
    (h : ∀ e, event.payload = some (.gates e) →
      ∀ (r : GateRecord) seq, (r.apply e seq).rounds = r.rounds) (a : NodeId) :
    ((s.taken event).gateRecord a).rounds = (s.gateRecord a).rounds := by
  rw [taken_gateRecord_eq hr]
  cases he : Choices.gateEvent a event with
  | none => rfl
  | some e => exact h e (Choices.gateEvent_eq_some.mp he).1 _ _

/-- What a question leaves of its node: parked, its state kept. -/
theorem taken_opens {s : RunState} {asked : StoredEvent} {node : NodeId} {p : GateWaitingPayload}
    (hr : s.refuse asked = .ok ()) (hasked : Choices.opens node asked = some p) :
    (s.taken asked).isWaiting node = true ∧
      (s.taken asked).preGate[node]? = some (s.nodes.state node) ∧
      ∀ a, (s.taken asked).nodes.get a =
        if node = a then
          some (({ (s.nodes.get node).getD {} with
            state := some (.waiting (.gate p.externalRef)) } : NodeRecord).closeWorking
              asked.timestamp s.run.suspensions)
        else s.nodes.get a := by
  obtain ⟨hp, hnode⟩ := Choices.gateEvent_eq_some.mp (Choices.opens_eq_some.mp hasked)
  have hget (a : NodeId) : (s.taken asked).nodes.get a =
      if node = a then
        some (({ (s.nodes.get node).getD {} with
          state := some (.waiting (.gate p.externalRef)) } : NodeRecord).closeWorking
            asked.timestamp s.run.suspensions)
      else s.nodes.get a := by
    rw [taken_gate hr hp]
    show (s.gateTransition (.waiting p) asked).1.nodes.get a = _
    unfold gateTransition
    rw [hnode]
    show ((s.nodes.setState node _).stopWorking node _ _).get a = _
    rw [NodeLedger.get_stopWorking, NodeLedger.get_setState, if_pos rfl, NodeLedger.get_setState]
    by_cases he : node = a
    · rw [if_pos he, if_pos he]
      rfl
    · rw [if_neg he, if_neg he, if_neg he]
  refine ⟨?_, ?_, hget⟩
  · rw [isWaiting, NodeLedger.state, hget, if_pos rfl, Option.bind_some,
      NodeRecord.closeWorking_state]
    rfl
  · rw [taken_gate hr hp]
    show (s.gateTransition (.waiting p) asked).1.preGate[node]? = _
    unfold gateTransition
    rw [hnode]
    exact (s.park_preGate node node (.gate p.externalRef)).trans (if_pos rfl)

/-- What an answer leaves of a node that waits: the state kept for it. -/
theorem taken_resolves {s : RunState} {answered : StoredEvent} {node : NodeId}
    {q : GateResolvedPayload} (hr : s.refuse answered = .ok ())
    (hanswered : Choices.resolves node answered = some q) (hwaits : s.isWaiting node = true)
    (a : NodeId) :
    (s.taken answered).nodes.get a =
      if node = a then
        some (({ (s.nodes.get node).getD {} with
          state := (s.preGate[node]?).join } : NodeRecord).resume answered.timestamp)
      else s.nodes.get a := by
  obtain ⟨hp, hnode⟩ := Choices.gateEvent_eq_some.mp (Choices.resolves_eq_some.mp hanswered)
  rw [taken_gate hr hp]
  show (s.gateTransition (.resolved q) answered).1.nodes.get a = _
  unfold gateTransition
  rw [hnode]
  show (if s.isWaiting node = true then s.unpark node _ else s : RunState).nodes.get a = _
  rw [if_pos hwaits]
  show ((s.nodes.setState node _).resumeWorking node _).get a = _
  rw [NodeLedger.get_resumeWorking, NodeLedger.get_setState, if_pos rfl, NodeLedger.get_setState]
  by_cases he : node = a
  · rw [if_pos he, if_pos he]
    rfl
  · rw [if_neg he, if_neg he, if_neg he]

/-- **A question asked and answered at the gate of a node with a state** leaves every node at rest
    as it was. -/
theorem taken_pair {s : RunState} {asked answered : StoredEvent} {node : NodeId}
    {p : GateWaitingPayload} {q : GateResolvedPayload}
    (hr : s.refuse asked = .ok ()) (hr' : (s.taken asked).refuse answered = .ok ())
    (hasked : Choices.opens node asked = some p)
    (hanswered : Choices.resolves node answered = some q)
    (hstate : s.nodes.hasState node = true) : Kept s ((s.taken asked).taken answered) := by
  have hp := (Choices.gateEvent_eq_some.mp (Choices.opens_eq_some.mp hasked)).1
  have hq := (Choices.gateEvent_eq_some.mp (Choices.resolves_eq_some.mp hanswered)).1
  obtain ⟨hwaits, hslot, hparked⟩ := taken_opens hr hasked
  obtain ⟨r, hr₀⟩ : ∃ r, s.nodes.get node = some r := by
    unfold NodeLedger.hasState NodeLedger.state at hstate
    cases hget : s.nodes.get node with
    | none => rw [hget] at hstate; cases hstate
    | some r => exact ⟨r, rfl⟩
  refine ⟨fun a => ?_, fun a => ?_, ?_, ?_⟩
  · rw [taken_resolves hr' hanswered hwaits, hslot, hparked node, if_pos rfl, hr₀]
    by_cases he : node = a
    · subst he
      rw [if_pos rfl, hr₀, Option.map_some, Option.map_some]
      have hkept : (some (s.nodes.state node)).join = r.state := by
        rw [NodeLedger.state, hr₀]
        rfl
      rw [hkept]
      exact congrArg some (restored_atRest r _ _ _ _)
    · rw [if_neg he, hparked a, if_neg he]
  · rw [taken_rounds hr', taken_rounds hr]
    · intro e he r seq
      rw [hp] at he
      cases he
      rfl
    · intro e he r seq
      rw [hq] at he
      cases he
      rfl
  · rw [taken_gate hr' hq, taken_gate hr hp]
    rfl
  · rw [taken_run_ledger hr', hq, taken_run_ledger hr, hp]

/-- A measurement leaves every node as it was. -/
theorem taken_measured {s : RunState} {event : StoredEvent} (h : measures event = true) :
    Kept s (s.taken event) := by
  unfold measures at h
  split at h
  · next p hp => 
    rw [taken_run hp]
    exact ⟨fun _ => rfl, fun _ => rfl, rfl, rfl⟩
  · next p hp =>
    rw [taken_run hp]
    exact ⟨fun _ => rfl, fun _ => rfl, rfl, rfl⟩
  · cases h

end RunState

/-! ## The start -/

namespace Board

variable {board : Board}

/-- **A menu of a failure is asked with where that failure is left to a person.** -/
theorem leftTo_of_escalates {node : Node} (hmem : node ∈ board.nodes) {id : NodeId}
    {failure : Failure} {attempt : Nat} {outlook : Outlook}
    (h : board.failureOf node = some (.escalateFailure id failure attempt outlook)) :
    board.leftTo node = some (failure, outlook) ∧ id = node.id ∧
      attempt = board.nextAttempt node.id ∧ board.policy.onFailure = .pause := by
  obtain ⟨failed, ⟨-, ⟨tokens, hstate⟩, hrerouted⟩, hasks⟩ := failureOf_settles hmem h rfl
  unfold unrerouted at hasks
  dsimp only at hasks
  split at hasks
  · split at hasks <;> cases hasks
  next hreroutes =>
  split at hasks
  · next hpause =>
    have hmenu := Option.some.inj hasks
    obtain ⟨heq, hwaits⟩ := pausedFailure_settles (by rw [hmenu]; rfl)
    have hgate : isGate node = false := by
      by_contra hgate
      rw [board.pausedFailure_of_waits hwaits, if_pos (by simpa using hgate)] at hmenu
      cases hmenu
    rw [heq] at hmenu
    injection hmenu with hid hfailure hattempt houtlook
    subst hfailure
    refine ⟨?_, hid.symm, hattempt.symm, hpause⟩
    unfold leftTo
    rw [hstate]
    dsimp only
    rw [← houtlook]
    exact if_pos ⟨Option.isNone_iff_eq_none.mpr hrerouted,
      Option.isNone_iff_eq_none.mpr hreroutes, hpause, hgate, hwaits⟩
  · cases hasks
  · cases hasks

theorem leftTo_state {node : Node} {failure : Failure} {outlook : Outlook}
    (h : board.leftTo node = some (failure, outlook)) :
    ∃ tokens, board.state.nodes.state node.id = some (.failed failure tokens) := by
  unfold leftTo at h
  split at h
  · next failed tokens hstate =>
    dsimp only at h
    split at h
    · obtain ⟨rfl, -⟩ := Prod.mk.inj (Option.some.inj h)
      exact ⟨tokens, hstate⟩
    · cases h
  · cases h

end Board

/-- **What a menu of a failure says of the board**: no question comes before the failures, no node
    before the failed one has a failure that asks for anything, and that one is left to a person. -/
theorem decide_escalates {workflow : Workflow} {policy : Policy} {s : RunState} {id : NodeId}
    {failure : Failure} {attempt : Nat} {outlook : Outlook}
    (h : decide workflow s policy = .escalateFailure id failure attempt outlook) :
    (Board.of workflow s policy).earlier = none ∧ policy.onFailure = .pause ∧
      ∃ front node back, (Board.of workflow s policy).nodes = front ++ node :: back ∧
        (∀ other ∈ front, (Board.of workflow s policy).failureOf other = none) ∧
        (Board.of workflow s policy).leftTo node = some (failure, outlook) ∧ id = node.id ∧
        attempt = (Board.of workflow s policy).nextAttempt node.id := by
  have hnext : (Board.of workflow s policy).next = .escalateFailure id failure attempt outlook := by
    unfold decide at h
    cases hbroken : s.broken with
    | some diagnostic => rw [hbroken] at h; cases h
    | none =>
      rw [hbroken] at h
      rcases before_cases workflow s policy (Board.of workflow s policy).next with hb | ⟨owed, hb⟩
      · rw [hb] at h
        exact h
      · rw [hb] at h
        cases h
  have hsettles : (Board.of workflow s policy).next.settles = true := by
    rw [hnext]
    rfl
  have hstep := Board.next_settles hsettles
  rw [hnext] at hstep
  obtain ⟨front, node, back, hnodes, hnode, hfront⟩ := List.findSome?_eq_some_iff.mp hstep
  have hmem : node ∈ (Board.of workflow s policy).nodes := by
    rw [hnodes]
    simp
  obtain ⟨hleft, hid, hattempt, hpause⟩ := Board.leftTo_of_escalates hmem hnode
  exact ⟨Board.earlier_of_settles hsettles, hpause, front, node, back, hnodes, hfront, hleft, hid,
    hattempt⟩

/-- A run asks with the menu of a failure the node rests in. -/
theorem failed_of_escalates {workflow : Workflow} {policy : Policy} {s : RunState} {id : NodeId}
    {failure : Failure} {attempt : Nat} {outlook : Outlook}
    (h : decide workflow s policy = .escalateFailure id failure attempt outlook) :
    ∃ tokens, s.nodes.state id = some (.failed failure tokens) := by
  obtain ⟨-, -, front, node, back, -, -, hleft, rfl, -⟩ := decide_escalates h
  exact Board.leftTo_state hleft

/-- **The scheduler starts the node a person chose to run again**, after the measurement it waits
    for: the state it asked in and the one it starts in differ in nothing it read. -/
theorem decide_again {workflow : Workflow} {policy : Policy} {s t : RunState}
    (h : RunState.Kept s t) (hbroken : t.broken = none) {id : NodeId} {failure : Failure}
    {attempt : Nat} {outlook : Outlook}
    (hasks : decide workflow s policy = .escalateFailure id failure attempt outlook)
    (hchosen : (Board.of workflow t policy).retryChosen id outlook = true) :
    decide workflow t policy = before workflow t policy (.execute [(id, attempt)]) := by
  obtain ⟨hearlier, hpause, front, node, back, hnodes, hfront, hleft, rfl, rfl⟩ :=
    decide_escalates hasks
  have hfailure : (Board.of workflow t policy).failureOf node =
      some (.execute [(node.id, (Board.of workflow t policy).nextAttempt node.id)]) := by
    rw [Board.failureOf_leftTo _ ((h.leftTo workflow policy node).trans hleft), if_pos hchosen]
  have hstep : failureStep (Board.of workflow t policy) =
      some (.execute [(node.id, (Board.of workflow t policy).nextAttempt node.id)]) := by
    refine List.findSome?_eq_some_iff.mpr ⟨front, node, back, hnodes, hfailure, ?_⟩
    exact fun other hmem => h.failureOf_none workflow policy hpause (hfront other hmem)
  have hnext : (Board.of workflow t policy).next =
      .execute [(node.id, (Board.of workflow s policy).nextAttempt node.id)] := by
    rw [Board.next_eq, h.earlier workflow policy hearlier, hstep, h.nextAttempt]
    rfl
  unfold decide
  rw [hbroken, hnext]

/-! ## After the start -/

namespace Choices

open RunState

/-- Whether an event starts an attempt of `node`. -/
def starts (node : NodeId) (event : StoredEvent) : Bool :=
  match event.payload with
  | some (.node (.started _)) => event.nodeId = some node
  | _ => false

/-- **No failure is left to a choice made at `at_`**: one the node rests in came after it, or the
    run paused since. -/
def Spent (node : NodeId) (at_ : Nat) (s : RunState) : Prop :=
  s.failedUnder node = true → s.untouched node at_ = false

section
variable {node : NodeId} {at_ : Nat} {s : RunState} {event : StoredEvent}

/-- Every event past a choice leaves it spent. -/
theorem Spent.taken (h : Spent node at_ s) (hr : s.refuse event = .ok ()) (hat : at_ ≤ event.seq) :
    Spent node at_ (s.taken event) := by
  intro hfailed
  rw [taken_untouched hr hat, Bool.and_eq_false_iff]
  rcases taken_failedUnder hr node hfailed with hbefore | ⟨hnode, p, hp⟩
  · exact Or.inr (h hbefore)
  · left
    unfold consumes
    rw [hp]
    simp [hnode]

/-- **A start spends the choice**: it leaves the node in no failure. -/
theorem spent_of_starts (hr : s.refuse event = .ok ()) (h : starts node event = true) :
    Spent node at_ (s.taken event) := by
  unfold starts at h
  split at h
  · next p hp =>
    intro hfailed
    exfalso
    have hnode : event.meta_.node = some node := by simpa using h
    have hstate : (s.taken event).nodes.state node = some (.running p.attempt) := by
      rw [taken_node hp]
      refine (s.nodes.state_apply node _ event.meta_ s.run.suspensions).trans ?_
      rw [if_pos hnode, NodeRecord.onEvent_state]
    rw [failedUnder, isWaiting, hstate] at hfailed
    cases hfailed
  · cases h

/-- So does a pause. -/
theorem spent_of_pause (hr : s.refuse event = .ok ()) (hat : at_ ≤ event.seq)
    (h : isPause event = true) : Spent node at_ (s.taken event) := by
  intro hfailed
  rw [taken_untouched hr hat]
  unfold isPause at h
  split at h
  · next p hp =>
    unfold consumes
    rw [hp]
    rfl
  · cases h

end

section
variable {node : NodeId} {at_ : Nat} {log events : List StoredEvent}

/-- Past a choice, what a log leaves spent, its continuations leave spent. -/
theorem Spent.append (h : Spent node at_ (derive log)) (hreads : Reads (log ++ events))
    (hat : ∀ event ∈ events, at_ ≤ event.seq) : Spent node at_ (derive (log ++ events)) := by
  induction events using List.reverseRecOn with
  | nil => simpa using h
  | append_singleton events event ih =>
    rw [← List.append_assoc] at hreads ⊢
    obtain ⟨hr, hderive⟩ := derive_snoc hreads.accepted
    rw [hderive]
    refine (ih hreads.front fun before hmem => ?_).taken hr (hat event (by simp))
    exact hat before (List.mem_append_left _ hmem)

/-- **A step that starts the node, or pauses the run, spends the choice.** -/
theorem spent_of_step (hreads : Reads (log ++ events)) (hat : ∀ event ∈ events, at_ ≤ event.seq)
    (h : ∃ event ∈ events, starts node event = true ∨ isPause event = true) :
    Spent node at_ (derive (log ++ events)) := by
  obtain ⟨event, hmem, hspends⟩ := h
  obtain ⟨front, back, rfl⟩ := List.append_of_mem hmem
  have hsplit : log ++ (front ++ event :: back) = (log ++ front ++ [event]) ++ back := by simp
  rw [hsplit] at hreads ⊢
  have hfront : Reads (log ++ front ++ [event]) :=
    ⟨accepted_of_append hreads.accepted, hreads.rising.front⟩
  obtain ⟨hr, hderive⟩ := derive_snoc hfront.accepted
  have hevent := hat event hmem
  refine Spent.append ?_ hreads fun later hlater => hat later (by simp [hlater])
  rw [hderive]
  rcases hspends with hstarts | hpauses
  · exact spent_of_starts hr hstarts
  · exact spent_of_pause hr hevent hpauses

/-- **A choice that is spent is not seen of a failure.** -/
theorem Spent.not_chosen (h : Spent node at_ (derive log)) (hreads : Reads log)
    (hfailed : ((derive log).nodes.state node).any NodeState.isFailed = true)
    (option : ReservedOption) : ¬ Chosen node log option at_ := by
  intro hchosen
  obtain ⟨-, p, hheld, -⟩ := chosen_iff_held.mp hchosen
  rw [← pending_eq hreads] at hheld
  have hkept := (Option.filter_eq_some_iff.mp hheld).2
  have hunder : (derive log).failedUnder node = true := by
    rw [failedUnder, hfailed]
    rfl
  rw [h hunder] at hkept
  cases hkept

end

end Choices

/-! ## Runs -/

/-- Whether a decision is to measure. -/
def Decision.isMeasure : Decision → Bool
  | .measureBaseline _ => true
  | _ => false

/-- The nodes a decision starts. -/
def Decision.starts : Decision → List NodeId
  | .execute batch => batch.map (·.1)
  | _ => []

namespace Choices

open RunState

/-- **The steps an engine takes**: what a step writes follows its log; one that starts a node
    records the start, or a pause; one that measures records what was owed. -/
structure Engine (policy : Policy) (acts : Acts) (node : NodeId) : Prop where
  follows : ∀ {log d events}, Reads log → acts log d = some events → Reads (log ++ events)
  starts : ∀ {log d events}, acts log d = some events → node ∈ d.starts →
    ∃ event ∈ events, starts node event = true ∨ isPause event = true
  measures : ∀ {log owed events}, Reads log → acts log (.measureBaseline owed) = some events →
    (∀ event ∈ events, measures event = true) ∧
      owedBaseline (derive (log ++ events)) policy = none

/-- A person chose, off the menu the run asks with about a failure, to run the failed node again. -/
structure Retried (workflow : Workflow) (policy : Policy) (node : NodeId) (attempt : Nat)
    (log : List StoredEvent) (asked answered : StoredEvent) : Prop where
  reads : Reads (log ++ [asked, answered])
  chose : ∃ failure outlook remedies stuck ref choice,
    decide workflow (derive log) policy = .escalateFailure node failure attempt outlook ∧
      opens node asked = some ⟨ref, some (.failure attempt failure remedies stuck)⟩ ∧
      resolves node answered = some (.chosen choice) ∧
      choice.option ∈ (Escalation.buildFailure node failure attempt outlook).options ∧
      Reroutes.runsAgain choice.option = true

/-- Whether a turn starts the node out of a failure while the choice made at `at_` is seen. -/
def StartsFor (node : NodeId) (at_ : Nat) (turn : Turn) : Prop :=
  node ∈ turn.decision.starts ∧
    ((derive turn.log).nodes.state node).any NodeState.isFailed = true ∧
    ∃ option, Chosen node turn.log option at_

/-- **The loop starts the node once for the choice made at `at_`**: the first step that measures
    nothing starts it, and no turn after that does.  The invocation may end before, at the
    measurement the node waits for or at the start. -/
inductive Once (acts : Acts) (node : NodeId) (attempt at_ : Nat) (driven : Driven) : Prop
  | ended (hturns : ∀ turn ∈ driven.turns, turn.decision.isMeasure = true)
      (hanswer : driven.answer.isMeasure = true ∨ driven.answer = .execute [(node, attempt)])
      (hended : driven.ended acts = true)
  | started (measured : List Turn) (start : Turn) (later : List Turn)
      (hturns : driven.turns = measured ++ start :: later)
      (hmeasured : ∀ turn ∈ measured, turn.decision.isMeasure = true)
      (hstart : start.decision = .execute [(node, attempt)]) (hfor : StartsFor node at_ start)
      (hlater : ∀ turn ∈ later, ¬ StartsFor node at_ turn)

/-- What every log keeps from the choice up to the start. -/
structure Stands (s : RunState) (node : NodeId) (option : ReservedOption) (at_ : Nat)
    (log : List StoredEvent) : Prop where
  reads : Reads log
  kept : Kept s (derive log)
  chosen : Chosen node log option at_

section
variable {workflow : Workflow} {policy : Policy} {s : RunState} {node : NodeId}
  {option : ReservedOption} {at_ attempt : Nat} {log : List StoredEvent}

/-- A measurement moves neither register. -/
theorem measured_keeps {event : StoredEvent} (h : measures event = true)
    (before : List StoredEvent) :
    question node before event = .keep ∧ choice node before event = .keep := by
  have hgate : gateEvent node event = none ∧ consumes node event = false := by
    unfold measures at h
    unfold gateEvent consumes
    split at h
    · next p hp =>
      rw [hp]
      exact ⟨rfl, rfl⟩
    · next p hp =>
      rw [hp]
      exact ⟨rfl, rfl⟩
    · cases h
  obtain ⟨hgate, hacts⟩ := hgate
  unfold question choice resolves
  rw [hgate, hacts]
  exact ⟨rfl, rfl⟩

/-- A measurement leaves the choice standing. -/
theorem Stands.measured (h : Stands s node option at_ log) {events : List StoredEvent}
    (hreads : Reads (log ++ events)) (hmeasures : ∀ event ∈ events, measures event = true) :
    Stands s node option at_ (log ++ events) := by
  induction events using List.reverseRecOn with
  | nil => simpa using h
  | append_singleton events event ih =>
    rw [← List.append_assoc] at hreads ⊢
    have hlog := ih hreads.front fun before hmem => hmeasures before (List.mem_append_left _ hmem)
    have hevent := hmeasures event (by simp)
    obtain ⟨hr, hderive⟩ := derive_snoc hreads.accepted
    refine ⟨hreads, ?_, ?_⟩
    · rw [hderive]
      exact hlog.kept.trans (taken_measured hevent)
    · have hchosen := hlog.chosen
      rw [chosen_iff_held] at hchosen ⊢
      obtain ⟨hquestion, hchoice⟩ := measured_keeps hevent (log ++ events)
      rw [Register.held_snoc, Register.held_snoc, hquestion, hchoice]
      exact hchosen

theorem mem_namedOptions {remedies : List Remedy} {option : ReservedOption}
    (h : option ∈ Escalation.namedOptions remedies) :
    remedies.any (fun remedy => remedy.option = option) = true := by
  unfold Escalation.namedOptions at h
  have hfold (named : List ReservedOption) (remedies : List Remedy)
      (h : option ∈ remedies.foldl (fun named remedy =>
        if remedy.option ≠ .abort ∧ remedy.option ∉ named then named ++ [remedy.option]
        else named) named) :
      option ∈ named ∨ remedies.any (fun remedy => remedy.option = option) = true := by
    induction remedies generalizing named with
    | nil => exact Or.inl h
    | cons remedy remedies ih =>
      rw [List.any_cons, Bool.or_eq_true]
      rcases ih _ h with hmem | hany
      · dsimp only at hmem
        split at hmem
        · rcases List.mem_append.mp hmem with hold | hnew
          · exact Or.inl hold
          · exact Or.inr (Or.inl (by simpa using (List.mem_singleton.mp hnew).symm))
        · exact Or.inl hmem
      · exact Or.inr (Or.inr hany)
  exact (hfold [] remedies h).resolve_left (by simp)

/-- **An option of a failure's menu that runs the node again** is one its remedies name. -/
theorem offered_of_mem {failure : Failure} {outlook : Outlook} {choice : HumanChoice}
    (hoption : choice.option ∈ (Escalation.buildFailure node failure attempt outlook).options)
    (hagain : Reroutes.runsAgain choice.option = true) :
    ∃ option remedies, ReservedOption.of choice.option = some option ∧ option.runsAgain = true ∧
      outlook = .choose remedies ∧ remedies.any (fun remedy => remedy.option = option) = true := by
  obtain ⟨option, hof, hruns⟩ := (Option.any_eq_true ..).mp hagain
  unfold Escalation.buildFailure at hoption
  rcases List.mem_append.mp hoption with hnamed | habort
  · obtain ⟨named, hmem, hid⟩ := List.mem_map.mp hnamed
    rw [← hid, ReservedOption.of_asStr] at hof
    obtain rfl := Option.some.inj hof
    have hany := mem_namedOptions hmem
    cases outlook with
    | choose remedies =>
      exact ⟨named, remedies, by rw [← hid, ReservedOption.of_asStr], hruns, rfl, hany⟩
    | waitUntil at_ => cases hany
    | stuck stuck => cases hany
  · rw [List.mem_singleton.mp habort, ReservedOption.of_asStr] at hof
    obtain rfl := Option.some.inj hof
    cases hruns

/-- **The choice stands right after it is made**, and the menu still offers it. -/
theorem Retried.stands {asked answered : StoredEvent}
    (h : Retried workflow policy node attempt log asked answered) :
    ∃ failure outlook option, decide workflow (derive log) policy =
        .escalateFailure node failure attempt outlook ∧
      (∃ remedies, outlook = .choose remedies ∧
        remedies.any (fun remedy => remedy.option = option) = true) ∧
      Stands (derive log) node option answered.seq (log ++ [asked, answered]) := by
  obtain ⟨failure, outlook, remedies, stuck, ref, chosen, hasks, hasked, hanswered, hoption,
    hagain⟩ := h.chose
  obtain ⟨option, offered, hof, hruns, houtlook, hany⟩ := offered_of_mem hoption hagain
  refine ⟨failure, outlook, option, hasks, ⟨offered, houtlook, hany⟩, h.reads, ?_, ?_⟩
  · have hreads : Reads (log ++ [asked] ++ [answered]) := by simpa using h.reads
    obtain ⟨hr', hderive'⟩ := derive_snoc hreads.accepted
    obtain ⟨hr, hderive⟩ := derive_snoc hreads.front.accepted
    have hstate : (derive log).nodes.hasState node = true := by
      obtain ⟨tokens, hfailed⟩ := failed_of_escalates hasks
      rw [NodeLedger.hasState, hfailed]
      rfl
    rw [show log ++ [asked, answered] = log ++ [asked] ++ [answered] by simp, hderive', hderive]
    rw [hderive] at hr'
    exact taken_pair hr hr' hasked hanswered hstate
  · rw [chosen_iff_held, show log ++ [asked, answered] = log ++ [asked] ++ [answered] by simp]
    have hopens := opens_eq_some.mp hasked
    have hresolves := resolves_eq_some.mp hanswered
    have hquestion : (question node).held (log ++ [asked]) =
        some (⟨ref, some (.failure attempt failure remedies stuck)⟩, asked.seq) := by
      rw [Register.held_snoc, question, hopens]
      rfl
    have htask : asksTask node (log ++ [asked]) = false := by
      rw [asksTask, hquestion]
      rfl
    refine ⟨?_, .chosen chosen, ?_, ?_⟩
    · rw [Register.held_snoc, question, hresolves]
      rfl
    · rw [Register.held_snoc, choice_set.mpr ⟨rfl, hanswered, htask⟩]
      rfl
    · rw [again, hof, Option.filter_some, if_pos hruns]

/-- **Where the choice stands, the scheduler starts the node**, after the measurement it waits
    for. -/
theorem Stands.starts (h : Stands s node option at_ log) {failure : Failure} {outlook : Outlook}
    (hasks : decide workflow s policy = .escalateFailure node failure attempt outlook)
    (hoffered : ∃ remedies, outlook = .choose remedies ∧
      remedies.any (fun remedy => remedy.option = option) = true) :
    decide workflow (derive log) policy =
      before workflow (derive log) policy (.execute [(node, attempt)]) := by
  obtain ⟨remedies, rfl, hany⟩ := hoffered
  refine decide_again h.kept h.reads.accepted hasks ?_
  have hchosen := (runAgainChosen_iff h.reads).mpr ⟨at_, h.chosen⟩
  show ((derive log).runAgainChosen node).any _ = true
  rw [hchosen]
  exact hany

/-- The turn that starts the node where the choice stands starts it for the choice. -/
theorem Stands.startsFor (h : Stands s node option at_ log) {failure : Failure} {outlook : Outlook}
    (hasks : decide workflow s policy = .escalateFailure node failure attempt outlook) :
    StartsFor node at_ ⟨log, .execute [(node, attempt)]⟩ := by
  refine ⟨List.mem_singleton.mpr rfl, ?_, option, h.chosen⟩
  obtain ⟨tokens, hfailed⟩ := failed_of_escalates hasks
  show ((derive log).nodes.state node).any _ = true
  rw [h.kept.state, hfailed]
  rfl

/-- What a step writes lies past a choice its log holds. -/
theorem seq_le_of_held {events : List StoredEvent} (hreads : Reads (log ++ events))
    (hheld : ∃ event ∈ log, event.seq = at_) : ∀ event ∈ events, at_ ≤ event.seq := by
  obtain ⟨event, hmem, rfl⟩ := hheld
  intro later hlater
  exact Nat.le_of_lt ((List.pairwise_append.mp hreads.rising).2.2 event hmem later hlater)

/-- **No turn after the start starts the node for the choice.** -/
theorem Stands.later {acts : Acts} (engine : Engine policy acts node)
    (h : Stands s node option at_ log) {d : Decision} {events : List StoredEvent}
    (hact : acts log d = some events) (hstarts : node ∈ d.starts) (fuel : Nat) :
    ∀ turn ∈ (drive workflow policy acts fuel (log ++ events)).turns,
      ¬ StartsFor node at_ turn := by
  have hheld : ∃ event ∈ log, event.seq = at_ := by
    obtain ⟨-, before, event, after, -, rfl, hat, -⟩ := h.chosen
    exact ⟨event, by simp, hat⟩
  have hreads := engine.follows h.reads hact
  have hspent : Spent node at_ (derive (log ++ events)) :=
    spent_of_step hreads (seq_le_of_held hreads hheld) (engine.starts hact hstarts)
  have hturns : ∀ turn ∈ (drive workflow policy acts fuel (log ++ events)).turns,
      Reads turn.log ∧ Spent node at_ (derive turn.log) ∧ ∃ event ∈ turn.log, event.seq = at_ := by
    refine drive_turns (P := fun log =>
      Reads log ∧ Spent node at_ (derive log) ∧ ∃ event ∈ log, event.seq = at_) ?_ fuel ?_
    · rintro log events ⟨hlog, hspent, hheld⟩ hact
      have hreads := engine.follows hlog hact
      obtain ⟨event, hmem, hat⟩ := hheld
      exact ⟨hreads, hspent.append hreads (seq_le_of_held hreads ⟨event, hmem, hat⟩), event,
        List.mem_append_left _ hmem, hat⟩
    · obtain ⟨event, hmem, hat⟩ := hheld
      exact ⟨hreads, hspent, event, List.mem_append_left _ hmem, hat⟩
  rintro turn hmem ⟨-, hfailed, option, hchosen⟩
  obtain ⟨hreads, hspent, -⟩ := hturns turn hmem
  exact hspent.not_chosen hreads hfailed option hchosen

/-- Where no measurement comes first, the first turn starts the node. -/
theorem Stands.once_of_starts {acts : Acts} (engine : Engine policy acts node)
    (h : Stands s node option at_ log) {failure : Failure} {outlook : Outlook}
    (hasks : decide workflow s policy = .escalateFailure node failure attempt outlook)
    (hstarts : decide workflow (derive log) policy = .execute [(node, attempt)]) {fuel : Nat}
    (hfuel : 1 ≤ fuel) : Once acts node attempt at_ (drive workflow policy acts fuel log) := by
  obtain ⟨fuel, rfl⟩ := Nat.exists_eq_add_of_le' hfuel
  cases hact : acts log (decide workflow (derive log) policy) with
  | none =>
    rw [drive_stop hact]
    refine .ended (by simp) (Or.inr hstarts) ?_
    rw [Driven.ended, hact]
    rfl
  | some events =>
    rw [drive_go hact]
    rw [hstarts] at hact ⊢
    refine .started [] ⟨log, .execute [(node, attempt)]⟩ _ rfl (by simp) rfl (h.startsFor hasks) ?_
    exact h.later engine hact (List.mem_singleton.mpr rfl) fuel

/-- A measurement before a loop that starts the node once leaves it once. -/
theorem Once.cons {acts : Acts} {driven : Driven} (h : Once acts node attempt at_ driven)
    {turn : Turn} (hmeasures : turn.decision.isMeasure = true) :
    Once acts node attempt at_ ⟨turn :: driven.turns, driven.log, driven.answer⟩ := by
  have hcons {turns : List Turn} (hturns : ∀ turn ∈ turns, turn.decision.isMeasure = true) :
      ∀ other ∈ turn :: turns, other.decision.isMeasure = true := by
    intro other hmem
    rcases List.mem_cons.mp hmem with rfl | hmem
    · exact hmeasures
    · exact hturns other hmem
  cases h with
  | ended hturns hanswer hended => exact .ended (hcons hturns) hanswer hended
  | started measured start later hturns hmeasured hstart hfor hlater =>
    refine .started (turn :: measured) start later ?_ (hcons hmeasured) hstart hfor hlater
    rw [hturns]
    rfl

/-- **From where the choice stands the loop starts the node once for it.** -/
theorem Stands.once {acts : Acts} (engine : Engine policy acts node)
    (h : Stands s node option at_ log) {failure : Failure} {outlook : Outlook}
    (hasks : decide workflow s policy = .escalateFailure node failure attempt outlook)
    (hoffered : ∃ remedies, outlook = .choose remedies ∧
      remedies.any (fun remedy => remedy.option = option) = true)
    {fuel : Nat} (hfuel : 2 ≤ fuel) :
    Once acts node attempt at_ (drive workflow policy acts fuel log) := by
  have hdecide := h.starts hasks hoffered
  rcases before_cases workflow (derive log) policy (.execute [(node, attempt)]) with
    hstarts | ⟨owed, hmeasures⟩
  · exact h.once_of_starts engine hasks (hdecide.trans hstarts) (by omega)
  · have hfirst := hdecide.trans hmeasures
    obtain ⟨fuel, rfl⟩ := Nat.exists_eq_add_of_le' (Nat.le_of_succ_le hfuel)
    cases hact : acts log (decide workflow (derive log) policy) with
    | none =>
      rw [drive_stop hact, hfirst]
      refine .ended (by simp) (Or.inl rfl) ?_
      rw [Driven.ended, ← hfirst, hact]
      rfl
    | some events =>
      rw [drive_go hact]
      rw [hfirst] at hact ⊢
      obtain ⟨hrecords, howed⟩ := engine.measures h.reads hact
      have hnext := h.measured (engine.follows h.reads hact) hrecords
      have hstarts : decide workflow (derive (log ++ events)) policy =
          .execute [(node, attempt)] := by
        rw [hnext.starts hasks hoffered, before, howed]
      exact (hnext.once_of_starts engine hasks hstarts (by omega)).cons rfl

end

/-- **A person's decision is acted on once.** What the run was handed is the latest answer of the
    node's gate, seen while nothing acted on it and nothing was asked since; the choice to run the
    node again is the latest answer of the node's own, seen while nothing acted on it and nothing is
    asked.  The loop driven from such a choice about a failure starts the node once for it. -/
theorem choices_acted_on_once (workflow : Workflow) (policy : Policy) (node : NodeId) :
    (∀ log, Accepted log → Rising log →
      (∀ p at_, (derive log).preSeeded node = some (p, at_) ↔ Answered node log p at_) ∧
      ∀ option, (derive log).runAgainChosen node = some option ↔
        ∃ at_, Chosen node log option at_) ∧
    ∀ attempt log asked answered, Retried workflow policy node attempt log asked answered →
      ∀ acts, Engine policy acts node → ∀ fuel, 2 ≤ fuel →
        Once acts node attempt answered.seq
          (drive workflow policy acts fuel (log ++ [asked, answered])) := by
  refine ⟨fun log haccepted hrising => ?_, ?_⟩
  · have hreads : Reads log := ⟨haccepted, hrising⟩
    exact ⟨fun p at_ => preSeeded_iff hreads, fun option => runAgainChosen_iff hreads⟩
  · intro attempt log asked answered hretried acts engine fuel hfuel
    obtain ⟨failure, outlook, option, hasks, hoffered, hstands⟩ := hretried.stands
    exact hstands.once engine hasks hoffered hfuel

/-! ### A run that fails and is retried -/

instance (log : List StoredEvent) : Decidable (Reads log) :=
  decidable_of_iff (Accepted log ∧ Rising log) ⟨fun h => ⟨h.1, h.2⟩, fun h => ⟨h.1, h.2⟩⟩

/-- The starts of a batch, past `seq`. -/
def startsOf : Nat → List (NodeId × Nat) → List StoredEvent
  | _, [] => []
  | seq, (node, attempt) :: batch =>
    nodeEvent (seq + 1) 0 node (.started ⟨attempt, none, none⟩) :: startsOf (seq + 1) batch

/-- An engine that starts what it is told to, and does nothing else. -/
def startingActs : Acts := fun log d =>
  match d with
  | .execute batch =>
    let events := startsOf log.length batch
    if Reads (log ++ events) then some events else none
  | _ => none

theorem starts_of_mem {node : NodeId} {batch : List (NodeId × Nat)}
    (h : node ∈ batch.map (·.1)) (seq : Nat) :
    ∃ event ∈ startsOf seq batch, starts node event = true ∨ isPause event = true := by
  induction batch generalizing seq with
  | nil => cases h
  | cons member batch ih =>
    obtain ⟨other, attempt⟩ := member
    rcases List.mem_cons.mp h with rfl | hmem
    · exact ⟨_, List.mem_cons_self, Or.inl (by simp [starts, nodeEvent, StoredEvent.payload])⟩
    · obtain ⟨event, hevent, hstarts⟩ := ih hmem (seq + 1)
      exact ⟨event, List.mem_cons_of_mem _ hevent, hstarts⟩

theorem startingActs_engine (policy : Policy) (node : NodeId) :
    Engine policy startingActs node where
  follows := by
    intro log d events _ hact
    unfold startingActs at hact
    split at hact
    · dsimp only at hact
      rw [Option.ite_none_right_eq_some] at hact
      obtain ⟨hreads, heq⟩ := hact
      rw [← Option.some.inj heq]
      exact hreads
    · cases hact
  starts := by
    intro log d events hact hnode
    unfold startingActs at hact
    split at hact
    · next batch =>
      dsimp only at hact
      rw [Option.ite_none_right_eq_some] at hact
      obtain ⟨-, heq⟩ := hact
      obtain rfl := Option.some.inj heq
      exact starts_of_mem hnode log.length
    · cases hact
  measures := by
    intro log owed events _ hact
    cases hact

/-- `fix` failed. -/
def failedLog : List StoredEvent :=
  [nodeEvent 1 0 "fix" (.started ⟨1, none, none⟩),
    nodeEvent 2 0 "fix" (.failed { failure := .exited 1 })]

/-- What the run asks about a failure of `node`'s. -/
def askedAbout (seq : Nat) (node : NodeId) : StoredEvent :=
  Reroutes.gateEvent seq node 
    (.waiting ⟨none, some (.failure 2 (.exited 1) [⟨.retry, some .outsideTreeChanged⟩] none)⟩)

/-- A person retries `fix`: the choice is seen, and the loop starts `fix` once for it. -/
theorem choices_acted_on_once_retry :
    (∃ at_, Chosen "fix" (failedLog ++ [askedAbout 3 "fix", Reroutes.answered 4 "fix" "retry"])
        .retry at_) ∧
      Once startingActs "fix" 2 4 (drive failingWorkflow onePolicy startingActs 2
        (failedLog ++ [askedAbout 3 "fix", Reroutes.answered 4 "fix" "retry"])) := by
  refine ⟨?_, ?_⟩
  · exact (((choices_acted_on_once failingWorkflow onePolicy "fix").1 _ (by decide +kernel)
      (by decide +kernel)).2 .retry).mp (by decide +kernel)
  · refine (choices_acted_on_once failingWorkflow onePolicy "fix").2 2 failedLog
      (askedAbout 3 "fix") (Reroutes.answered 4 "fix" "retry") ⟨by decide +kernel, ?_⟩ startingActs
      (startingActs_engine onePolicy "fix") 2 (by decide)
    exact ⟨.exited 1, .choose [⟨.retry, some .outsideTreeChanged⟩],
      [⟨.retry, some .outsideTreeChanged⟩], none, none, ⟨"retry", "", none⟩,
      by decide +kernel, rfl, rfl, by decide +kernel, by decide +kernel⟩

/-- `fix` failed, a person chose `retry`, and then denied what one of its tasks asked for. -/
def deniedLog : List StoredEvent :=
  failedLog ++ [askedAbout 3 "fix", Reroutes.answered 4 "fix" "retry",
    Reroutes.gateEvent 5 "fix" (.waiting ⟨none, some .scope⟩), Reroutes.answered 6 "fix" "deny"]

/-- **A gate asked about a task after the choice does not close its window, and a `retry` on the
    menu of exhausted reroutes starts nothing.** -/
theorem not_choices_acted_on_once :
    (¬ ∀ node log, Accepted log → Rising log → ∀ option,
      (derive log).runAgainChosen node = some option →
        ∃ before event after choice, log = before ++ event :: after ∧
          resolves node event = some (.chosen choice) ∧
          ReservedOption.of choice.option = some option ∧
          ∀ later ∈ after, consumes node later = false ∧ opens node later = none) ∧
    ∃ log asked answered, Reads (log ++ [asked, answered]) ∧
      decide (Reroutes.lintFrozen 0).workflow (derive log) onePolicy =
        .gateExhaustedReroutes "lint" "fix" 0 (.exited 1) ∧
      (opens "lint" asked).isSome = true ∧
      resolves "lint" answered = some (.chosen ⟨"retry", "", none⟩) ∧
      decide (Reroutes.lintFrozen 0).workflow (derive (log ++ [asked, answered])) onePolicy =
        .gateExhaustedReroutes "lint" "fix" 0 (.exited 1) := by
  refine ⟨fun h => ?_, ?_⟩
  · obtain ⟨before, event, after, choice, hsplit, hresolves, hof, hlater⟩ :=
      h "fix" deniedLog (by decide +kernel) (by decide +kernel) .retry (by decide +kernel)
    have hrising : Rising deniedLog := by decide +kernel
    have hgate : Reroutes.gateEvent 5 "fix" (.waiting ⟨none, some .scope⟩) ∈ deniedLog := by
      simp [deniedLog]
    have hevent : event ∈ deniedLog := by simp [hsplit]
    have hretries : ∀ event ∈ deniedLog, ((resolves "fix" event).any fun p =>
        again p = some .retry) = true → event.seq = 4 := by decide +kernel
    have hretry : event.seq = 4 := by
      refine hretries event hevent ?_
      rw [hresolves, Option.any_some, again, hof]
      rfl
    rw [hsplit] at hrising hgate
    rw [Rising, List.pairwise_append] at hrising
    rcases List.mem_append.mp hgate with hmem | hmem
    · have hlt : 5 < event.seq := hrising.2.2 _ hmem event List.mem_cons_self
      omega
    · rcases List.mem_cons.mp hmem with heq | hmem
      · rw [← heq] at hretry
        cases hretry
      · cases (hlater _ hmem).2
  · exact ⟨[nodeEvent 1 0 "lint" (.started ⟨1, none, none⟩),
        nodeEvent 2 0 "lint" (.failed ⟨.exited 1, {}, none⟩)], askedAbout 3 "lint",
      Reroutes.answered 4 "lint" "retry", by decide +kernel, by decide +kernel, rfl, rfl,
      by decide +kernel⟩

end Choices

end Yunta
