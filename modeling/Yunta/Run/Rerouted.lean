/-
  How often a failed node is sent to its correction.

  1. **What asks for a correction** — `decide_settles`: a reroute, a menu of exhausted reroutes and
     a menu of a failure are asked for by one failed node alone, which nothing rerouted since.

  2. **Runs** — `Live` is the log and the decision the engine carries out.  An event is appended
     where that decision allows it (`mayReroute`, `mayChoose`): a reroute of `on_failure` answers
     a decision to reroute, or a person's `retry` on the menu of exhausted reroutes.

  3. **The credit** — a node's reroutes and the `retry` it still owes a reroute never pass its
     `max_reroutes` and the retries people chose (`Bounded.credit`).

  4. **Main result** — `reroutes_bounded`: between two choices of a person a node's `on_failure`
     reroutes it at most `max_reroutes` times, or once where that is none, and never for a failure
     no correction changes.  A choice at a gate reroutes beside that count
     (`not_reroutes_bounded`).
-/
import Yunta.Lib.Machine
import Yunta.Replay.Marks
import Yunta.Run.Escalation
import Yunta.Schedule.Progress
import Yunta.Workflow.Nesting

set_option linter.unusedVariables false

namespace Yunta

/-! ## What asks for a correction -/

/-- Whether a decision is what a failure with no reroute after it asks for. -/
def Decision.settles : Decision → Bool
  | .reroute .. | .gateExhaustedReroutes .. | .escalateFailure .. => true
  | _ => false

/-- A question that never settles a failure leaves that to the questions after it. -/
theorem orElse_settles {first rest : Option Decision} {last : Decision}
    (hfirst : ∀ d, first = some d → d.settles = false)
    (h : ((first <|> rest).getD last).settles = true) :
    first = none ∧ (rest.getD last).settles = true := by
  cases first with
  | none => exact ⟨rfl, h⟩
  | some d =>
    have hd : d.settles = true := h
    rw [hfirst d rfl] at hd
    cases hd

namespace Board

variable (board : Board)

@[simp] theorem driveGate_settles (node : Node) : (board.driveGate node).settles = false := by
  unfold driveGate
  split <;> rfl

/-- A failed node with no reroute after its failure, as the log holds it. -/
structure Failing (node : Node) (failure : Failure) : Prop where
  mem : node ∈ board.nodes
  state : ∃ tokens, board.state.nodes.state node.id = some (.failed failure tokens)
  unrerouted : (board.state.marks node.id).lastReroute.filter (fun reroute =>
    (board.state.marks node.id).lastFailed.all (· < reroute.seq)) = none

/-- When the failure happened, as the record holds it. -/
def failedAt (node : Node) : Int :=
  (((board.state.nodes.get node.id).getD {}).lastTerminalAt).getD 0

/-- What can change a node's failure, on the facts the log holds. -/
def outlookOf (node : Node) (failure : Failure) : Outlook :=
  failure.remedies (board.factsOf node failure (board.failedAt node))

variable {board}

/-- Where a reroute got to settles no failure. -/
theorem afterReroute_settles {node : Node} {goto : NodeId} {seq : Nat} {d : Decision}
    (h : board.afterReroute node goto seq = some d) : d.settles = false := by
  unfold afterReroute at h
  dsimp only at h
  split at h
  · split at h
    · split at h
      · split at h
        · cases h; exact board.driveGate_settles _
        · cases h; rfl
      · cases h; rfl
    · cases h
    · split at h
      · cases h; exact board.driveGate_settles _
      · cases h; rfl
  · split at h
    · cases h
    · cases h; rfl

/-- **A failure is settled where nothing rerouted it since**, from its own `on_failure` or the
    policy. -/
theorem failureOf_settles {node : Node} (hmem : node ∈ board.nodes) {d : Decision}
    (h : board.failureOf node = some d) (hd : d.settles = true) :
    ∃ failure, board.Failing node failure ∧
      board.unrerouted node failure (board.state.marks node.id).onFailureReroutes
        (board.failedAt node) = some d := by
  unfold failureOf at h
  split at h
  · next failure tokens hstate =>
    dsimp only at h
    split at h
    · next hnone => exact ⟨failure, ⟨hmem, ⟨tokens, hstate⟩, hnone⟩, h⟩
    · rw [afterReroute_settles h] at hd
      cases hd
  · cases h

theorem waitingStep_settles {d : Decision} (h : waitingStep board = some d) :
    d.settles = false := by
  obtain ⟨node, -, hnode⟩ := List.exists_of_findSome?_eq_some h
  split at hnode
  · split at hnode <;> cases hnode <;> rfl
  · cases hnode; rfl
  · cases hnode

theorem orphanStep_settles {d : Decision} (h : orphanStep board = some d) :
    d.settles = false := by
  unfold orphanStep at h
  dsimp only at h
  split at h
  · cases h
  · split at h <;> cases h <;> rfl

theorem reverifyStep_settles {d : Decision} (h : reverifyStep board = some d) :
    d.settles = false := by
  unfold reverifyStep at h
  split at h
  · cases h
  · obtain ⟨node, -, rfl⟩ := Option.map_eq_some_iff.mp h
    rfl

theorem readyBatch_settles (board : Board) : (readyBatch board).settles = false := by
  unfold readyBatch
  cases hgate : readyGate board with
  | some d =>
    obtain ⟨node, -, rfl⟩ := Option.map_eq_some_iff.mp hgate
    exact board.driveGate_settles node
  | none =>
    cases hnodes : readyNodes board with
    | some d =>
      unfold readyNodes at hnodes
      dsimp only at hnodes
      split at hnodes <;> cases hnodes
      rfl
    | none =>
      show (nothingRunnable board).settles = false
      unfold nothingRunnable
      split
      · rfl
      · dsimp only
        split
        · cases hfailed : board.nodes.findSome? board.failedNode with
          | none => rfl
          | some d =>
            obtain ⟨node, -, hnode⟩ := List.exists_of_findSome?_eq_some hfailed
            unfold failedNode at hnode
            split at hnode <;> cases hnode
            rfl
        · rfl

/-- What comes before the failures settles none. -/
theorem earlier_of_settles {board : Board} (h : board.next.settles = true) : board.earlier = none := by
  rw [next_eq] at h
  refine (orElse_settles (fun d hd => ?_) h).1
  unfold earlier at hd
  rcases hgate : gateStep board with _ | first
  · rw [hgate] at hd
    rcases hwaiting : waitingStep board with _ | first
    · rw [hwaiting] at hd
      rcases hanswered : answeredStep board with _ | first
      · rw [hanswered] at hd
        exact orphanStep_settles hd
      · rw [hanswered] at hd
        obtain ⟨node, -, rfl⟩ := Option.map_eq_some_iff.mp (hanswered.trans hd)
        rfl
    · rw [hwaiting] at hd
      exact waitingStep_settles (hwaiting.trans hd)
  · rw [hgate] at hd
    obtain ⟨node, -, rfl⟩ := Option.map_eq_some_iff.mp (hgate.trans hd)
    exact board.driveGate_settles node

/-- **Only the failures settle a failure.** -/
theorem next_settles {board : Board} (h : board.next.settles = true) :
    failureStep board = some board.next := by
  have hearlier := earlier_of_settles h
  rw [next_eq, hearlier] at h ⊢
  cases hfailure : failureStep board with
  | some d => rfl
  | none =>
    rw [hfailure] at h
    have hrest : ((reverifyStep board).getD (readyBatch board)).settles = true := h
    cases hreverify : reverifyStep board with
    | none =>
      rw [hreverify, Option.getD_none, readyBatch_settles] at hrest
      cases hrest
    | some d =>
      rw [hreverify, Option.getD_some, reverifyStep_settles hreverify] at hrest
      cases hrest

/-- **A decision that settles a failure** answers one failed node of the board, which nothing
    rerouted since. -/
theorem decide_settles {workflow : Workflow} {state : RunState} {policy : Policy}
    (h : (decide workflow state policy).settles = true) :
    ∃ node failure, (Board.of workflow state policy).Failing node failure ∧
      (Board.of workflow state policy).unrerouted node failure
        (state.marks node.id).onFailureReroutes
        ((Board.of workflow state policy).failedAt node) =
          some (decide workflow state policy) := by
  have hnext : decide workflow state policy = (Board.of workflow state policy).next := by
    unfold decide at h ⊢
    cases hbroken : state.broken with
    | some diagnostic => rw [hbroken] at h; cases h
    | none =>
      rw [hbroken] at h
      rcases before_cases workflow state policy (Board.of workflow state policy).next with
        hb | ⟨owed, hb⟩
      · exact hb
      · rw [hb] at h
        cases h
  rw [hnext] at h ⊢
  obtain ⟨node, hmem, hfailure⟩ := List.exists_of_findSome?_eq_some (next_settles h)
  obtain ⟨failure, hfailing, hasked⟩ := failureOf_settles hmem hfailure h
  exact ⟨node, failure, hfailing, hasked⟩

/-! ### What each answer says -/

section
variable {node : Node} {failure : Failure} {reroutes : Nat} {failedAt : Int}

/-- A paused failure settles only as a menu, and waits for no reset there. -/
theorem pausedFailure_settles {outlook : Outlook}
    (h : (board.pausedFailure node failure outlook).settles = true) :
    board.pausedFailure node failure outlook =
        .escalateFailure node.id failure (board.nextAttempt node.id) outlook ∧
      outlook.waits = false := by
  unfold pausedFailure at h ⊢
  dsimp only at h ⊢
  split at h
  · split at h <;> cases h
  · next hwaits =>
    split at h
    · cases h
    · next hgate =>
      split at h
      · cases h
      · next hchosen =>
        refine ⟨by rw [if_neg hgate, if_neg hchosen], ?_⟩
        cases outlook with
        | waitUntil at_ => exact absurd rfl (hwaits at_)
        | _ => rfl

/-- **What a failure with no reroute after it asks for**: its `on_failure` below the cap or at it,
    where a correction can change it, and the policy's answer otherwise. -/
theorem unrerouted_cases {d : Decision}
    (h : board.unrerouted node failure reroutes failedAt = some d) (hd : d.settles = true) :
    (∃ onFailure, node.onFailure = some onFailure ∧
      correctionCanChange failure (failure.remedies (board.factsOf node failure failedAt)) =
        true ∧
      (reroutes < onFailure.maxReroutes ∧
          d = .reroute node.id onFailure.goto (reroutes + 1) onFailure.maxReroutes failure ∨
        onFailure.maxReroutes ≤ reroutes ∧
          d = .gateExhaustedReroutes node.id onFailure.goto onFailure.maxReroutes failure)) ∨
    ((node.onFailure.isSome = true →
        correctionCanChange failure (failure.remedies (board.factsOf node failure failedAt)) =
          false) ∧
      (failure.remedies (board.factsOf node failure failedAt)).waits = false ∧
      d = .escalateFailure node.id failure (board.nextAttempt node.id)
        (failure.remedies (board.factsOf node failure failedAt))) := by
  unfold unrerouted at h
  dsimp only at h
  split at h
  · next onFailure hfilter =>
    left
    obtain ⟨hdeclared, hcan⟩ := Option.filter_eq_some_iff.mp hfilter
    refine ⟨onFailure, hdeclared, hcan, ?_⟩
    split at h
    · next hbelow => exact Or.inl ⟨hbelow, (Option.some.inj h).symm⟩
    · next hbelow => exact Or.inr ⟨Nat.le_of_not_lt hbelow, (Option.some.inj h).symm⟩
  · next hfilter =>
    right
    have hcannot (hsome : node.onFailure.isSome = true) :
        correctionCanChange failure (failure.remedies (board.factsOf node failure failedAt)) =
          false := by
      obtain ⟨onFailure, hdeclared⟩ := Option.isSome_iff_exists.mp hsome
      by_contra hcan
      rw [hdeclared] at hfilter
      simp [hcan] at hfilter
    split at h
    · obtain rfl := Option.some.inj h
      obtain ⟨heq, hwaits⟩ := pausedFailure_settles hd
      exact ⟨hcannot, hwaits, heq⟩
    · obtain rfl := Option.some.inj h
      cases hd
    · cases h

/-- **Nothing a menu offers runs a failure again that no correction can change**: it repeats a plan,
    or it is stuck. -/
theorem stuck_of_cannot {facts : Facts} (hwaits : (failure.remedies facts).waits = false)
    (hcannot : correctionCanChange failure (failure.remedies facts) = false) :
    ∃ stuck, failure.remedies facts = .stuck stuck := by
  cases houtlook : failure.remedies facts with
  | waitUntil at_ => rw [houtlook] at hwaits; cases hwaits
  | stuck stuck => exact ⟨stuck, rfl⟩
  | choose remedies =>
    -- only a repeated plan is left, and nothing is offered for one
    exfalso
    rw [houtlook] at hcannot
    unfold correctionCanChange at hcannot
    split at hcannot
    · next since tasks => cases houtlook
    · cases hcannot

end

end Board

/-! ## What no correction changes -/

namespace Failure

/-- A failure that only waits for an account's limit to reset, at a moment past the failure: its
    own limit, one a task of the node stopped on, or the one its child run failed on. -/
inductive AwaitsReset (failedAt : Int) : Failure → Prop
  | limit {limit : AccountLimit} {at_ : Int} (hat : limit.resetsAt = some at_)
      (hpast : failedAt < at_) : AwaitsReset failedAt (.limit limit)
  | tasks {stopped : List TaskStop} {stop : TaskStop} {limit : AccountLimit} {at_ : Int}
      (hstop : stop ∈ stopped) (hcause : stop.cause = .sessionLimited limit)
      (hat : limit.resetsAt = some at_) (hpast : failedAt < at_) :
      AwaitsReset failedAt (.tasksStopped stopped)
  | child {run : RunId} {failure : Failure} (h : AwaitsReset failedAt failure) :
      AwaitsReset failedAt (.childFailed run failure)

/-- A failure of a file the run froze at its birth, the node's own or its child run's. -/
inductive OfFrozenFile : Failure → Prop
  | input (name : String) : OfFrozenFile (.frozenInput name)
  | read : OfFrozenFile .frozenRead
  | child {run : RunId} {failure : Failure} (h : OfFrozenFile failure) :
      OfFrozenFile (.childFailed run failure)

/-- A plan that repeats the declaration its correction already answered. -/
inductive RepeatsPlan : Failure → Prop
  | mk (since : Nat) (tasks : List UnpassableTask) :
      RepeatsPlan (.unchanged since (.planUnpassable tasks))

end Failure

/-- One stop that waits for a reset makes the scan of the stops wait. -/
theorem foldl_wait (facts : Facts) (stopped : List TaskStop) (scan : StopScan)
    (h : scan.wait.isSome = true ∨ ∃ stop ∈ stopped, ∃ at_, stopOutlook facts stop.cause =
      .waitUntil at_) :
    (stopped.foldl (StopScan.step facts) scan).wait.isSome = true := by
  induction stopped generalizing scan with
  | nil =>
    rcases h with h | ⟨stop, hmem, -⟩
    · exact h
    · cases hmem
  | cons first rest ih =>
    rw [List.foldl_cons]
    apply ih
    rcases h with h | ⟨stop, hmem, at_, hwaits⟩
    · left
      unfold StopScan.step
      split
      · exact h
      · exact h
      · rfl
    · rcases List.mem_cons.mp hmem with rfl | hrest
      · left
        unfold StopScan.step
        rw [hwaits]
        rfl
      · exact Or.inr ⟨stop, hrest, at_, hwaits⟩

theorem limitOutlook_waits {facts : Facts} {limit : AccountLimit} {at_ : Int}
    (hat : limit.resetsAt = some at_) (hpast : facts.failedAt < at_) :
    limitOutlook limit facts = .waitUntil at_ := by
  unfold limitOutlook
  rw [hat]
  exact if_pos hpast

namespace Failure

/-- **A failure that only waits for a reset has nothing else to wait for.** -/
theorem AwaitsReset.waits {facts : Facts} {failure : Failure}
    (h : failure.AwaitsReset facts.failedAt) : (failure.remedies facts).waits = true := by
  induction h with
  | limit hat hpast =>
    show (limitOutlook _ facts).waits = true
    rw [limitOutlook_waits hat hpast]
    rfl
  | @tasks stopped stop limit at_ hstop hcause hat hpast =>
    show (stoppedOutlook stopped facts).waits = true
    have hwait : stopOutlook facts stop.cause = .waitUntil at_ := by
      rw [hcause]
      exact limitOutlook_waits hat hpast
    unfold stoppedOutlook
    dsimp only
    obtain ⟨latest, hlatest⟩ := Option.isSome_iff_exists.mp
      (foldl_wait facts stopped ⟨if continuable stopped facts then [⟨.continueWork, none⟩] else [],
        none, none⟩ (Or.inr ⟨stop, hstop, at_, hwait⟩))
    rw [hlatest]
    rfl
  | child _ ih => exact ih

/-- A frozen file is stuck on what the run froze. -/
theorem OfFrozenFile.stuck {facts : Facts} {failure : Failure} (h : failure.OfFrozenFile) :
    failure.remedies facts = .stuck .frozenInput ∨
      failure.remedies facts = .stuck .frozenConfig := by
  induction h with
  | input name => exact Or.inl rfl
  | read => exact Or.inr rfl
  | child _ ih => exact ih

end Failure

/-- **A correction that can change a failure is none a reset, a frozen file or a repeated plan made
    pointless.** -/
theorem Board.changes_of_can {facts : Facts} {failure : Failure}
    (h : correctionCanChange failure (failure.remedies facts) = true) :
    ¬ failure.AwaitsReset facts.failedAt ∧ ¬ failure.OfFrozenFile ∧ ¬ failure.RepeatsPlan := by
  refine ⟨fun hwaits => ?_, fun hfrozen => ?_, fun hrepeats => ?_⟩
  · have houtlook := hwaits.waits
    unfold correctionCanChange at h
    cases hremedies : failure.remedies facts with
    | waitUntil at_ => rw [hremedies] at h; simp at h
    | _ => rw [hremedies] at houtlook; cases houtlook
  · unfold correctionCanChange at h
    rcases (hfrozen.stuck : failure.remedies facts = _ ∨ _) with hstuck | hstuck <;>
      · rw [hstuck] at h
        simp at h
  · obtain ⟨since, tasks⟩ := hrepeats
    cases h

/-! ## Runs -/

namespace Reroutes

open RunState Machine

/-- The log, and the decision the engine carries out. -/
structure Live where
  log : List StoredEvent
  decided : Option Decision

inductive Act where
  | decide (policy : Policy)
  | event (event : StoredEvent)

/-- The reroute an event records, and the node it left. -/
def rerouteOf (event : StoredEvent) : Option (NodeId × NodeReroutedPayload) :=
  match event.payload, event.nodeId with
  | some (.node (.rerouted p)), some node => some (node, p)
  | _, _ => none

/-- What a person chose, and the node they chose it about. -/
def choiceOf (event : StoredEvent) : Option (NodeId × HumanChoice) :=
  match event.payload, event.nodeId with
  | some (.gates (.resolved (.chosen choice))), some node => some (node, choice)
  | _, _ => none

/-- Whether an option runs its node again. -/
def runsAgain (option : OptionId) : Bool := (ReservedOption.of option).any ReservedOption.runsAgain

/-- Whether an option is a `retry`. -/
def isRetry (option : OptionId) : Bool := ReservedOption.of option = some .retry

/-- Whether a resolution is a person's `retry`. -/
def choosesRetry : GateResolvedPayload → Bool
  | .chosen choice => isRetry choice.option
  | _ => false

/-- Whether a resolution is a person's choice to run the node again. -/
def choosesAgain : GateResolvedPayload → Bool
  | .chosen choice => runsAgain choice.option
  | _ => false

/-- Whether `node`'s own `on_failure` made the reroute an event records. -/
def reroutes (node : NodeId) (event : StoredEvent) : Bool :=
  (rerouteOf event).any fun left => left.1 = node && left.2.origin = .onFailure

/-- Whether a node event is a reroute its own `on_failure` made. -/
def correctsOwn : NodeEvent → Bool
  | .rerouted p => p.origin = .onFailure
  | _ => false

/-- Whether a person chose what `node` does. -/
def chooses (node : NodeId) (event : StoredEvent) : Bool :=
  (choiceOf event).any fun chosen => chosen.1 = node

/-- Whether a person chose `retry` for `node`. -/
def retries (node : NodeId) (event : StoredEvent) : Bool :=
  (choiceOf event).any fun chosen => chosen.1 = node && isRetry chosen.2.option

section
variable (frozen : Frozen)

/-- **What `on_failure` may record**: the reroute the engine decided on, or, on the menu of
    exhausted reroutes, the one more a person's `retry` asks for while nothing acted on it. -/
def mayReroute (live : Live) (node : NodeId) (p : NodeReroutedPayload) : Bool :=
  match live.decided with
  | some (.reroute source goto attempt maxReroutes cause) =>
    source = node && p = ⟨goto, cause, some attempt, some maxReroutes, .onFailure⟩
  | some (.gateExhaustedReroutes asked goto maxReroutes cause) =>
    asked = node && p = ⟨goto, cause, some (maxReroutes + 1), some maxReroutes, .onFailure⟩ &&
      ((derive live.log).preSeeded node).any fun resolution => choosesRetry resolution.1
  | _ => false

/-- **What a person may choose**: a failed node that is no gate is run again only from the menu the
    run asks with. -/
def mayChoose (live : Live) (node : NodeId) (choice : HumanChoice) : Bool :=
  !runsAgain choice.option || !(derive live.log).failedUnder node ||
    frozen.workflow.nodes.any (fun declared => declared.id = node && isGate declared) ||
    (live.decided.bind frozen.menuOf).any fun asked =>
      asked.1 = node && asked.2.options.contains choice.option

/-- One step: the scheduler answers, or an event the log can take is appended.  A reroute carries
    out the decision it answers. -/
def step (live : Live) : Act → Option Live
  | .decide policy =>
    some ⟨live.log, some (Yunta.decide frozen.workflow (derive live.log) policy)⟩
  | .event event =>
    if Accepted (live.log ++ [event]) ∧ (∀ before ∈ live.log, before.seq < event.seq) ∧
        (rerouteOf event).all (fun left =>
          left.2.origin = .gateChoice || mayReroute live left.1 left.2) = true ∧
        (choiceOf event).all (fun chosen => mayChoose frozen live chosen.1 chosen.2) = true then
      some ⟨live.log ++ [event],
        if (rerouteOf event).any fun left => left.2.origin = .onFailure then none
        else live.decided⟩
    else none

/-- Before anything ran. -/
def born : Live := ⟨[], none⟩

end

/-- Whether a node owes a reroute to the last answer its gate holds: a `retry`, with no reroute of
    the node's after it. -/
def owes (s : RunState) (node : NodeId) : Bool :=
  (s.resolutions node).getLast?.any fun resolution =>
    choosesRetry resolution.1 &&
      (s.marks node).lastReroute.all fun reroute => reroute.seq < resolution.2

/-- Whether the last answer of the node's own stands for running it again: nothing closed it or
    rerouted it since. -/
def standsAgain (s : RunState) (node : NodeId) : Bool :=
  (s.own node).getLast?.any fun resolution =>
    choosesAgain resolution.1 &&
      ((s.marks node).lastTerminal.all fun seq => seq < resolution.2) &&
      (s.marks node).lastReroute.all fun reroute => reroute.seq < resolution.2

/-! ## What one event does -/

section
variable {s : RunState} {event : StoredEvent} {node : NodeId}

theorem rerouteOf_eq_some {left : NodeId × NodeReroutedPayload} (h : rerouteOf event = some left) :
    event.payload = some (.node (.rerouted left.2)) ∧ event.nodeId = some left.1 := by
  unfold rerouteOf at h
  split at h
  · next p node hp hnode => cases h; exact ⟨hp, hnode⟩
  · cases h

theorem choiceOf_of {choice : HumanChoice}
    (hp : event.payload = some (.gates (.resolved (.chosen choice))))
    (hnode : event.nodeId = some node) : choiceOf event = some (node, choice) := by
  unfold choiceOf
  rw [hp, hnode]

/-- An event that reroutes is no choice. -/
theorem retries_of_reroutes (h : reroutes node event = true) : retries node event = false := by
  obtain ⟨left, hleft, -⟩ := (Option.any_eq_true ..).mp h
  unfold retries choiceOf
  rw [(rerouteOf_eq_some hleft).1]
  rfl

/-- An event that is none of the node's own reroutes nothing of it. -/
theorem reroutes_of_other (h : ∀ e, event.payload = some (.node e) → event.nodeId ≠ some node) :
    reroutes node event = false := by
  rw [reroutes, Option.any_eq_false]
  intro left hleft
  obtain ⟨hp, hnode⟩ := rerouteOf_eq_some hleft
  have hne : left.1 ≠ node := fun heq => h _ hp (heq ▸ hnode)
  simp [hne]

theorem reroutes_of {e : NodeEvent} (hp : event.payload = some (.node e))
    (hnode : event.nodeId = some node) :
    reroutes node event = correctsOwn e := by
  unfold reroutes rerouteOf
  rw [hp, hnode]
  cases e <;> simp [correctsOwn]

/-- **A record counts the reroutes of its `on_failure`.** -/
theorem taken_count (hr : s.refuse event = .ok ()) :
    ((s.taken event).marks node).onFailureReroutes =
      (s.marks node).onFailureReroutes + (reroutes node event).toNat := by
  rcases taken_marks_cases hr node with ⟨e, hp, hnode, hmarks⟩ | ⟨hother, hmarks⟩
  · rw [hmarks, reroutes_of hp hnode]
    cases e with
    | rerouted p =>
      by_cases horigin : p.origin = .onFailure <;> simp [Marks.after, correctsOwn, horigin]
    | _ => rfl
  · rw [hmarks, reroutes_of_other hother]
    rfl

/-- An event leaves the node's latest reroute, or is it. -/
theorem taken_lastReroute (hr : s.refuse event = .ok ()) (node : NodeId) :
    reroutes node event = false ∧
        ((s.taken event).marks node).lastReroute = (s.marks node).lastReroute ∨
      ∃ reroute, ((s.taken event).marks node).lastReroute = some reroute ∧
        reroute.seq = event.seq := by
  rcases taken_marks_cases hr node with ⟨e, hp, hnode, hmarks⟩ | ⟨hother, hmarks⟩
  · rw [hmarks, reroutes_of hp hnode]
    cases e with
    | rerouted p => exact Or.inr ⟨_, rfl, rfl⟩
    | _ => exact Or.inl ⟨rfl, rfl⟩
  · rw [hmarks]
    exact Or.inl ⟨reroutes_of_other hother, rfl⟩

/-- An event leaves the node's latest terminal, or is it; a failure is one. -/
theorem taken_lastTerminal (hr : s.refuse event = .ok ()) (node : NodeId) :
    ((s.taken event).marks node).lastTerminal = some event.seq ∨
      ((s.taken event).marks node).lastTerminal = (s.marks node).lastTerminal ∧
        ¬ (event.nodeId = some node ∧ ∃ p, event.payload = some (.node (.failed p))) := by
  rcases taken_marks_cases hr node with ⟨e, hp, hnode, hmarks⟩ | ⟨hother, hmarks⟩
  · rw [hmarks]
    cases e with
    | finished p => exact Or.inl rfl
    | failed p => exact Or.inl rfl
    | _ =>
      refine Or.inr ⟨rfl, ?_⟩
      rintro ⟨-, p, hfailed⟩
      rw [hp] at hfailed
      cases hfailed
  · rw [hmarks]
    refine Or.inr ⟨rfl, ?_⟩
    rintro ⟨hnode, p, hp⟩
    exact hother _ hp hnode

/-- **A node owes a reroute to a new `retry`**, or to one it owed before and still does. -/
theorem taken_owes (hr : s.refuse event = .ok ())
    (hbelow : ∀ resolution ∈ s.resolutions node, resolution.2 < event.seq)
    (h : owes (s.taken event) node = true) :
    owes s node = true ∧ reroutes node event = false ∨ retries node event = true := by
  obtain ⟨resolution, hlast, hchosen⟩ := (Option.any_eq_true ..).mp h
  rw [Bool.and_eq_true] at hchosen
  rcases taken_resolutions hr node with hsame | ⟨p, hp, hnode, hadded⟩
  · left
    rw [hsame] at hlast
    have hlt := hbelow resolution (List.mem_of_getLast? hlast)
    rcases taken_lastReroute hr node with ⟨hreroutes, hkept⟩ | ⟨reroute, hnew, hseq⟩
    · refine ⟨(Option.any_eq_true ..).mpr ⟨resolution, hlast, ?_⟩, hreroutes⟩
      rw [Bool.and_eq_true, ← hkept]
      exact hchosen
    · -- a reroute past the answer settles what the node owed
      have hpast := hchosen.2
      rw [hnew, Option.all_some, decide_eq_true_eq, hseq] at hpast
      omega
  · right
    rw [hadded, List.getLast?_concat, Option.some.injEq] at hlast
    subst hlast
    cases p with
    | chosen choice =>
      unfold retries
      rw [choiceOf_of hp hnode]
      simpa [choosesRetry] using hchosen.1
    | _ => cases hchosen.1

/-- **An answer comes to stand for running a failed node again** as a person's choice, or stood
    so before. -/
theorem taken_standsAgain (hr : s.refuse event = .ok ())
    (hbelow : ∀ resolution ∈ s.resolutions node, resolution.2 < event.seq)
    (hfailed : (s.taken event).failedUnder node = true)
    (h : standsAgain (s.taken event) node = true) :
    s.failedUnder node = true ∧ (standsAgain s node = true ∨
      ∃ choice, choiceOf event = some (node, choice) ∧ runsAgain choice.option = true) := by
  obtain ⟨resolution, hlast, hchosen⟩ := (Option.any_eq_true ..).mp h
  rw [Bool.and_eq_true, Bool.and_eq_true] at hchosen
  obtain ⟨⟨hagain, hterminal⟩, hreroute⟩ := hchosen
  have hown : ∀ x ∈ s.own node, x.2 < event.seq := by
    intro x hmem
    refine hbelow x ?_
    unfold own at hmem
    unfold resolutions
    cases hget : s.gates.get node with
    | none => rw [hget] at hmem; cases hmem
    | some record => rw [hget] at hmem; exact List.mem_of_mem_filter hmem
  have hunder : s.failedUnder node = true ∨
      event.nodeId = some node ∧ ∃ p, event.payload = some (.node (.failed p)) :=
    taken_failedUnder hr node hfailed
  rcases taken_own hr node hbelow with hsame | ⟨p, hp, hnode, hadded⟩
  · -- no answer since: nothing closed or rerouted the node either
    rw [hsame] at hlast
    have hlt := hown resolution (List.mem_of_getLast? hlast)
    rcases taken_lastTerminal hr node with hnew | ⟨hkept, hnot⟩
    · rw [hnew, Option.all_some, decide_eq_true_eq] at hterminal
      omega
    rcases taken_lastReroute hr node with ⟨-, hstill⟩ | ⟨reroute, hnew, hseq⟩
    · refine ⟨hunder.resolve_right hnot, Or.inl ((Option.any_eq_true ..).mpr
        ⟨resolution, hlast, ?_⟩)⟩
      rw [Bool.and_eq_true, Bool.and_eq_true, ← hkept, ← hstill]
      exact ⟨⟨hagain, hterminal⟩, hreroute⟩
    · rw [hnew, Option.all_some, decide_eq_true_eq, hseq] at hreroute
      omega
  · rw [hadded, List.getLast?_concat, Option.some.injEq] at hlast
    subst hlast
    refine ⟨hunder.resolve_right ?_, Or.inr ?_⟩
    · rintro ⟨-, q, hq⟩
      rw [hp] at hq
      cases hq
    · cases p with
      | chosen choice => exact ⟨choice, choiceOf_of hp hnode, hagain⟩
      | _ => cases hagain

end

/-! ## What the log holds -/

theorem countP_snoc (p : StoredEvent → Bool) (log : List StoredEvent) (event : StoredEvent) :
    (log ++ [event]).countP p = log.countP p + (p event).toNat := by
  rw [List.countP_append, List.countP_singleton]
  cases p event <;> rfl

/-- The reroutes a node's record counts are the log's. -/
theorem derive_reroutes (node : NodeId) {log : List StoredEvent} (h : Accepted log) :
    ((derive log).marks node).onFailureReroutes = log.countP (reroutes node) := by
  induction log using List.reverseRecOn with
  | nil => rfl
  | append_singleton log event ih =>
    obtain ⟨hr, hderive⟩ := derive_snoc h
    rw [hderive, taken_count hr, ih (accepted_of_append h), countP_snoc]

/-- Every answer of a gate sits at an event of the log. -/
theorem derive_resolutions (node : NodeId) {log : List StoredEvent} (h : Accepted log) :
    ∀ resolution ∈ (derive log).resolutions node, ∃ event ∈ log, event.seq = resolution.2 := by
  induction log using List.reverseRecOn with
  | nil =>
    intro resolution hmem
    simp [derive, deriveFrom, resolutions, GateLedger.get] at hmem
  | append_singleton log event ih =>
    obtain ⟨hr, hderive⟩ := derive_snoc h
    intro resolution hmem
    rw [hderive] at hmem
    rcases taken_resolutions hr node with hsame | ⟨p, -, -, hadded⟩
    · rw [hsame] at hmem
      obtain ⟨before, hbefore, hseq⟩ := ih (accepted_of_append h) resolution hmem
      exact ⟨before, List.mem_append_left _ hbefore, hseq⟩
    · rw [hadded, List.mem_append, List.mem_singleton] at hmem
      rcases hmem with hmem | rfl
      · obtain ⟨before, hbefore, hseq⟩ := ih (accepted_of_append h) resolution hmem
        exact ⟨before, List.mem_append_left _ hbefore, hseq⟩
      · exact ⟨event, List.mem_append_right _ List.mem_cons_self, rfl⟩

/-- An event past every other of the log lies past every answer of a gate. -/
theorem resolutions_below (node : NodeId) {log : List StoredEvent} (h : Accepted log)
    {event : StoredEvent} (hseq : ∀ before ∈ log, before.seq < event.seq) :
    ∀ resolution ∈ (derive log).resolutions node, resolution.2 < event.seq := by
  intro resolution hmem
  obtain ⟨before, hbefore, hat⟩ := derive_resolutions node h resolution hmem
  rw [← hat]
  exact hseq before hbefore

/-- An answer nothing acted on lies past every terminal and every reroute of its node. -/
theorem marks_of_unconsumed {s : RunState} {node : NodeId} {at_ : Nat}
    (h : s.unconsumed node at_ = true) :
    ((s.marks node).lastTerminal.all fun seq => seq < at_) = true ∧
      ((s.marks node).lastReroute.all fun reroute => reroute.seq < at_) = true := by
  unfold unconsumed at h
  simp only [Bool.and_eq_true] at h
  obtain ⟨⟨⟨hterminal, hreroute⟩, -⟩, -⟩ := h
  unfold marks NodeRecord.marks
  cases hget : s.nodes.get node with
  | none => exact ⟨rfl, rfl⟩
  | some record =>
    rw [hget] at hterminal hreroute
    rw [Option.bind_some, Option.all_map] at hreroute
    exact ⟨hterminal, hreroute⟩

/-- A standing `retry` of the menu of exhausted reroutes is one the node owes a reroute to. -/
theorem owes_of_preSeeded {s : RunState} {node : NodeId}
    (h : (s.preSeeded node).any (fun resolution => choosesRetry resolution.1) = true) :
    owes s node = true := by
  obtain ⟨resolution, hseeded, hretry⟩ := (Option.any_eq_true ..).mp h
  obtain ⟨hlast, hstands⟩ := Option.filter_eq_some_iff.mp hseeded
  obtain ⟨record, hrecord, hlast⟩ := Option.bind_eq_some_iff.mp hlast
  refine (Option.any_eq_true ..).mpr ⟨resolution, ?_, ?_⟩
  · rw [resolutions, hrecord]
    exact hlast
  · rw [Bool.and_eq_true]
    exact ⟨hretry, (marks_of_unconsumed hstands).2⟩

/-- A choice to run a node again that stands is the last answer of its own. -/
theorem standsAgain_of_chosen {s : RunState} {node : NodeId}
    (h : (s.runAgainChosen node).isSome = true) : standsAgain s node = true := by
  obtain ⟨option, hoption⟩ := Option.isSome_iff_exists.mp h
  obtain ⟨record, hrecord, hrest⟩ := Option.bind_eq_some_iff.mp hoption
  obtain ⟨⟨p, at_⟩, hlast, hrest⟩ := Option.bind_eq_some_iff.mp hrest
  refine (Option.any_eq_true ..).mpr ⟨(p, at_), ?_, ?_⟩
  · rw [own, hrecord]
    exact hlast
  cases p with
  | chosen choice =>
    obtain ⟨option, hread, hstands⟩ := Option.bind_eq_some_iff.mp hrest
    rw [Option.ite_none_right_eq_some, Bool.and_eq_true] at hstands
    obtain ⟨⟨hagain, hstands⟩, -⟩ := hstands
    have hpast := marks_of_unconsumed hstands
    rw [Bool.and_eq_true, Bool.and_eq_true]
    refine ⟨⟨?_, hpast.1⟩, hpast.2⟩
    rw [choosesAgain, runsAgain, hread]
    exact hagain
  | _ => cases hrest

/-! ## The credit -/

section
variable (frozen : Frozen) (node : Node) (maxReroutes : Nat)

/-- **What every state of a run keeps of a node's reroutes.** -/
structure Bounded (live : Live) : Prop where
  accepted : Accepted live.log
  below : ∀ source goto attempt cap cause,
    live.decided = some (.reroute source goto attempt cap cause) → source = node.id →
      live.log.countP (reroutes node.id) < maxReroutes
  asked : ∀ escalation, live.decided.bind frozen.menuOf = some (node.id, escalation) →
    (∃ option ∈ escalation.options, runsAgain option = true) →
      maxReroutes ≤ live.log.countP (reroutes node.id)
  stands : isGate node = false → (derive live.log).failedUnder node.id = true →
    standsAgain (derive live.log) node.id = true →
      maxReroutes ≤ live.log.countP (reroutes node.id)
  credit : live.log.countP (reroutes node.id) + (owes (derive live.log) node.id).toNat ≤
    maxReroutes + live.log.countP (retries node.id)

variable {frozen : Frozen} {node : Node} {maxReroutes : Nat}

theorem bounded_born : Bounded frozen node maxReroutes born where
  accepted := rfl
  below := fun _ _ _ _ _ h => by cases h
  asked := fun _ h => by cases h
  stands := fun _ h => by cases h
  credit := Nat.zero_le _

/-- What settles a failure of a node the workflow declares once is that node's. -/
theorem settles_of (hdistinct : frozen.workflow.Distinct) (hnode : node ∈ frozen.workflow.nodes)
    {state : RunState} {policy : Policy} {other : Node} {failure : Failure}
    (h : (Board.of frozen.workflow state policy).Failing other failure)
    (hid : other.id = node.id) : other = node :=
  eq_of_id hdistinct (List.mem_of_mem_filter h.mem) hnode hid

/-- A decision to reroute a node is taken below its cap. -/
theorem below_of_decide (hdistinct : frozen.workflow.Distinct)
    (hnode : node ∈ frozen.workflow.nodes) {onFailure : OnFailure}
    (hdeclared : node.onFailure = some onFailure) {state : RunState} {policy : Policy}
    {goto : NodeId} {attempt cap : Nat} {cause : Failure}
    (h : decide frozen.workflow state policy = .reroute node.id goto attempt cap cause) :
    (state.marks node.id).onFailureReroutes < onFailure.maxReroutes ∧
      (Board.of frozen.workflow state policy).Failing node cause ∧
      Board.correctionCanChange cause
        ((Board.of frozen.workflow state policy).outlookOf node cause) = true := by
  obtain ⟨other, failure, hfailing, hasked⟩ := Board.decide_settles (by rw [h]; rfl)
  rcases Board.unrerouted_cases hasked (by rw [h]; rfl) with
    ⟨declared, hother, hcan, ⟨hbelow, hd⟩ | ⟨-, hd⟩⟩ | ⟨-, -, hd⟩
  · rw [h] at hd
    injection hd with hid hgoto hattempt hcap hcause
    subst hcause
    obtain rfl := settles_of hdistinct hnode hfailing hid.symm
    rw [hdeclared] at hother
    cases hother
    exact ⟨hbelow, hfailing, hcan⟩
  · rw [h] at hd
    cases hd
  · rw [h] at hd
    cases hd

/-- A menu that offers to run a node again is asked with at its cap. -/
theorem cap_of_asked (hdistinct : frozen.workflow.Distinct)
    (hnode : node ∈ frozen.workflow.nodes) {onFailure : OnFailure}
    (hdeclared : node.onFailure = some onFailure) {state : RunState} {policy : Policy}
    {escalation : Escalation}
    (h : frozen.menuOf (decide frozen.workflow state policy) = some (node.id, escalation))
    (hagain : ∃ option ∈ escalation.options, runsAgain option = true) :
    onFailure.maxReroutes ≤ (state.marks node.id).onFailureReroutes := by
  generalize hdecide : decide frozen.workflow state policy = d at h
  have hsettles : d.settles = true := by
    cases d <;> first | rfl | cases h
  obtain ⟨other, failure, hfailing, hasked⟩ :=
    Board.decide_settles (by rw [hdecide]; exact hsettles)
  rw [hdecide] at hasked
  rcases Board.unrerouted_cases hasked hsettles with
    ⟨declared, hother, hcan, ⟨-, rfl⟩ | ⟨hcap, rfl⟩⟩ | ⟨hcannot, hwaits, rfl⟩
  · cases h
  · obtain ⟨hid, -⟩ := Prod.mk.inj (Option.some.inj h)
    obtain rfl := settles_of hdistinct hnode hfailing hid
    rw [hdeclared] at hother
    cases hother
    exact hcap
  · -- nothing can change the failure, so its menu only aborts
    obtain ⟨hid, hmenu⟩ := Prod.mk.inj (Option.some.inj h)
    obtain rfl := settles_of hdistinct hnode hfailing hid
    obtain ⟨stuck, hstuck⟩ := Board.stuck_of_cannot hwaits (hcannot (by rw [hdeclared]; rfl))
    obtain ⟨option, hmem, hruns⟩ := hagain
    rw [← hmenu, hstuck] at hmem
    have habort : option = ReservedOption.abort.asStr := by
      simpa [Escalation.buildFailure, Escalation.namedOptions] using hmem
    rw [habort, runsAgain, ReservedOption.of_asStr] at hruns
    cases hruns

/-- **A decision is taken within the cap**: below it to reroute, and at it to ask whether to run the
    node again. -/
theorem bounded_decide (hdistinct : frozen.workflow.Distinct) (hnode : node ∈ frozen.workflow.nodes)
    {onFailure : OnFailure} (hdeclared : node.onFailure = some onFailure) {live : Live}
    (h : Bounded frozen node onFailure.maxReroutes live) (policy : Policy) :
    Bounded frozen node onFailure.maxReroutes
      ⟨live.log, some (decide frozen.workflow (derive live.log) policy)⟩ where
  accepted := h.accepted
  below := by
    intro source goto attempt cap cause hdecided hsource
    subst hsource
    rw [← derive_reroutes node.id h.accepted]
    exact (below_of_decide hdistinct hnode hdeclared (Option.some.inj hdecided)).1
  asked := by
    intro escalation hasked hagain
    rw [← derive_reroutes node.id h.accepted]
    exact cap_of_asked hdistinct hnode hdeclared hasked hagain
  stands := h.stands
  credit := h.credit

/-- **What an event the run may take is**: one more of the log, past every event before it, that
    keeps to the decision carried out. -/
theorem step_event {live live' : Live} {event : StoredEvent}
    (hstep : step frozen live (.event event) = some live') :
    live'.log = live.log ++ [event] ∧ Accepted (live.log ++ [event]) ∧
      (∀ before ∈ live.log, before.seq < event.seq) ∧
      (∀ left, rerouteOf event = some left →
        left.2.origin = .gateChoice ∨ mayReroute live left.1 left.2 = true) ∧
      (∀ chosen, choiceOf event = some chosen → mayChoose frozen live chosen.1 chosen.2 = true) ∧
      ∀ d, live'.decided = some d →
        live.decided = some d ∧ ∀ node, reroutes node event = false := by
  unfold step at hstep
  rw [Option.ite_none_right_eq_some] at hstep
  obtain ⟨⟨haccepted, hseq, hreroute, hchoice⟩, heq⟩ := hstep
  obtain rfl := Option.some.inj heq
  refine ⟨rfl, haccepted, hseq, ?_, ?_, ?_⟩
  · intro left hleft
    rw [hleft] at hreroute
    simpa using hreroute
  · intro chosen hchosen
    rw [hchosen] at hchoice
    exact hchoice
  · intro d hd
    dsimp only at hd
    split at hd
    · cases hd
    · next hnone =>
      refine ⟨hd, fun node => ?_⟩
      unfold reroutes
      cases hleft : rerouteOf event with
      | none => rfl
      | some left =>
        rw [hleft] at hnone
        have horigin : left.2.origin ≠ .onFailure := by simpa using hnone
        simp [horigin]

/-- **A reroute of `on_failure` spends what is left below the cap**, or at it a `retry` the node is
    owed. -/
theorem reroute_paid {live : Live} (h : Bounded frozen node maxReroutes live) {event : StoredEvent}
    (hmay : ∀ left, rerouteOf event = some left →
      left.2.origin = .gateChoice ∨ mayReroute live left.1 left.2 = true)
    (hreroutes : reroutes node.id event = true) :
    live.log.countP (reroutes node.id) < maxReroutes ∨
      maxReroutes ≤ live.log.countP (reroutes node.id) ∧
        owes (derive live.log) node.id = true := by
  obtain ⟨left, hleft, hown⟩ := (Option.any_eq_true ..).mp hreroutes
  rw [Bool.and_eq_true, decide_eq_true_eq, decide_eq_true_eq] at hown
  obtain ⟨hid, horigin⟩ := hown
  have hallowed : mayReroute live left.1 left.2 = true :=
    (hmay left hleft).resolve_left (by rw [horigin]; exact fun h => by cases h)
  rw [hid] at hallowed
  unfold mayReroute at hallowed
  split at hallowed
  · next source goto attempt cap cause hdecided =>
    rw [Bool.and_eq_true, decide_eq_true_eq] at hallowed
    exact Or.inl (h.below _ _ _ _ _ hdecided hallowed.1)
  · next asked goto cap cause hdecided =>
    rw [Bool.and_eq_true, Bool.and_eq_true, decide_eq_true_eq] at hallowed
    obtain ⟨⟨hasked, -⟩, hseeded⟩ := hallowed
    subst hasked
    refine Or.inr ⟨h.asked (.buildReroute frozen.nextMode node.id goto cap cause) ?_ ?_,
      owes_of_preSeeded hseeded⟩
    · rw [hdecided]
      rfl
    · exact ⟨ReservedOption.retry.asStr, by simp [Escalation.buildReroute],
        by rw [runsAgain, ReservedOption.of_asStr]; rfl⟩
  · cases hallowed

/-- **An event that the run may take keeps the credit.** -/
theorem bounded_event (hdistinct : frozen.workflow.Distinct) (hnode : node ∈ frozen.workflow.nodes)
    {live live' : Live} (h : Bounded frozen node maxReroutes live) {event : StoredEvent}
    (hstep : step frozen live (.event event) = some live') :
    Bounded frozen node maxReroutes live' := by
  obtain ⟨hlog, haccepted, hseq, hmay, hchoice, hkept⟩ := step_event hstep
  obtain ⟨hr, hderive⟩ := derive_snoc haccepted
  have hbelow := resolutions_below node.id h.accepted hseq
  have hcount : live'.log.countP (reroutes node.id) =
      live.log.countP (reroutes node.id) + (reroutes node.id event).toNat := by
    rw [hlog, countP_snoc]
  have hretries : live'.log.countP (retries node.id) =
      live.log.countP (retries node.id) + (retries node.id event).toNat := by
    rw [hlog, countP_snoc]
  rw [← hlog] at haccepted hderive
  refine ⟨haccepted, ?_, ?_, ?_, ?_⟩
  · intro source goto attempt cap cause hdecided hsource
    obtain ⟨hdecided, hnone⟩ := hkept _ hdecided
    rw [hcount, hnone]
    exact h.below _ _ _ _ _ hdecided hsource
  · intro escalation hasked hagain
    obtain ⟨d, hd, hmenu⟩ := Option.bind_eq_some_iff.mp hasked
    obtain ⟨hdecided, hnone⟩ := hkept _ hd
    rw [hcount, hnone]
    exact h.asked escalation (by rw [hdecided]; exact hmenu) hagain
  · intro hgate hfailed hstands
    rw [hderive] at hfailed hstands
    obtain ⟨hunder, hold | ⟨choice, hchosen, hruns⟩⟩ :=
      taken_standsAgain hr hbelow hfailed hstands
    · have hcap := h.stands hgate hunder hold
      omega
    · -- a person chose it from the menu the run asked with
      have hoffered := hchoice _ hchosen
      have hnogate : (frozen.workflow.nodes.any fun declared =>
          declared.id = node.id && isGate declared) = false := by
        rw [List.any_eq_false]
        intro declared hmem hboth
        rw [Bool.and_eq_true, decide_eq_true_eq] at hboth
        rw [eq_of_id hdistinct hmem hnode hboth.1, hgate] at hboth
        cases hboth.2
      unfold mayChoose at hoffered
      rw [hruns, hunder, hnogate] at hoffered
      obtain ⟨asked, hmenu, hopen⟩ := (Option.any_eq_true ..).mp hoffered
      rw [Bool.and_eq_true, decide_eq_true_eq, List.contains_iff_mem] at hopen
      have hmine : asked = (node.id, asked.2) := Prod.ext hopen.1 rfl
      have hcap := h.asked asked.2 (hmine ▸ hmenu) ⟨_, hopen.2, hruns⟩
      omega
  · have hcredit := h.credit
    rw [hderive]
    cases howes : owes ((derive live.log).taken event) node.id with
    | true =>
      rcases taken_owes hr hbelow howes with ⟨hold, hnone⟩ | hretry
      · rw [hcount, hretries, hnone]
        rw [hold] at hcredit
        show _ + 0 + 1 ≤ _
        have hone : true.toNat = 1 := rfl
        omega
      · have hnone : reroutes node.id event = false := by
          by_contra hsome
          rw [retries_of_reroutes (Bool.not_eq_false _ ▸ hsome)] at hretry
          cases hretry
        rw [hcount, hretries, hnone, hretry]
        show _ + 0 + 1 ≤ _ + (_ + 1)
        omega
    | false =>
      rw [hcount, hretries]
      cases hreroutes : reroutes node.id event with
      | true =>
        show _ + 1 + 0 ≤ _
        rcases reroute_paid h hmay hreroutes with hbelow | ⟨-, howed⟩
        · omega
        · rw [howed] at hcredit
          have hone : true.toNat = 1 := rfl
          omega
      | false =>
        show _ + 0 + 0 ≤ _
        omega

/-! ## Runs keep the cap -/

/-- **Every state of a run is within the cap.** -/
theorem reached_bounded (hdistinct : frozen.workflow.Distinct)
    (hnode : node ∈ frozen.workflow.nodes) {onFailure : OnFailure}
    (hdeclared : node.onFailure = some onFailure) {live : Live}
    (h : Reached (step frozen) Free born live) :
    Bounded frozen node onFailure.maxReroutes live := by
  refine h.invariant bounded_born ?_
  intro live act live' hlive _ hstep
  cases act with
  | decide policy =>
    obtain rfl := Option.some.inj hstep
    exact bounded_decide hdistinct hnode hdeclared hlive policy
  | event event => exact bounded_event hdistinct hnode hlive hstep

/-- Every log a run's log extends is one the run held. -/
theorem reached_prefix {live : Live} (h : Reached (step frozen) Free born live)
    {log : List StoredEvent} (hlog : log <+: live.log) :
    ∃ before, Reached (step frozen) Free born before ∧ before.log = log := by
  induction h with
  | refl => exact ⟨born, .refl, (List.prefix_nil.mp hlog).symm⟩
  | @snoc live live' act hlive _ hstep ih =>
    cases act with
    | decide policy =>
      obtain rfl := Option.some.inj hstep
      exact ih hlog
    | event event =>
      obtain ⟨hlog', -⟩ := step_event hstep
      rw [hlog'] at hlog
      rcases List.prefix_concat_iff.mp hlog with hwhole | hshort
      · exact ⟨live', hlive.snoc (.event event) trivial hstep, hlog'.trans hwhole.symm⟩
      · exact ih hshort

/-- How a node's reroutes grew from `start`, over a stretch with no choice about it: not at all, up
    to the cap, or by the one that a `retry` before the stretch asked for. -/
def Grew (start most count : Nat) (owing : Bool) : Prop :=
  count = start ∨ (start < count ∧ count ≤ most ∧ owing = false) ∨
    (count = start + 1 ∧ most < count ∧ owing = false)

/-- **A stretch with no choice about a node reroutes it up to its cap, or once past it.** -/
theorem stretch_grew (hdistinct : frozen.workflow.Distinct) (hnode : node ∈ frozen.workflow.nodes)
    {onFailure : OnFailure} (hdeclared : node.onFailure = some onFailure) {live : Live}
    (h : Reached (step frozen) Free born live) {before stretch : List StoredEvent}
    (hlog : live.log = before ++ stretch)
    (hquiet : ∀ event ∈ stretch, chooses node.id event = false) :
    Grew (before.countP (reroutes node.id)) onFailure.maxReroutes
      (live.log.countP (reroutes node.id)) (owes (derive live.log) node.id) := by
  induction h generalizing stretch with
  | refl =>
    have hnil : before = [] := (List.append_eq_nil_iff.mp hlog.symm).1
    rw [hnil]
    exact Or.inl rfl
  | @snoc live live' act hlive _ hstep ih =>
    cases act with
    | decide policy =>
      obtain rfl := Option.some.inj hstep
      exact ih hlog hquiet
    | event event =>
      obtain ⟨hlog', haccepted, hseq, hmay, -, -⟩ := step_event hstep
      rcases List.eq_nil_or_concat stretch with rfl | ⟨rest, last, rfl⟩
      · rw [List.append_nil] at hlog
        rw [hlog]
        exact Or.inl rfl
      rw [hlog', List.concat_eq_append, ← List.append_assoc] at hlog
      obtain ⟨hbefore, hlast⟩ := List.append_inj' hlog rfl
      cases hlast
      rw [List.concat_eq_append] at hquiet
      have hgrew := ih hbefore fun e he => hquiet e (List.mem_append_left _ he)
      have hchoice : retries node.id event = false := by
        have hnone := hquiet event (List.mem_append_right _ List.mem_cons_self)
        unfold chooses at hnone
        unfold retries
        cases hchosen : choiceOf event with
        | none => rfl
        | some chosen =>
          rw [hchosen] at hnone
          have hne : chosen.1 ≠ node.id := by simpa using hnone
          simp [hne]
      have hbounded := reached_bounded hdistinct hnode hdeclared hlive
      obtain ⟨hr, hderive⟩ := derive_snoc haccepted
      have hbelow := resolutions_below node.id hbounded.accepted hseq
      have howes (howes : owes (derive live'.log) node.id = true) :
          owes (derive live.log) node.id = true ∧ reroutes node.id event = false := by
        rw [hlog', hderive] at howes
        refine (taken_owes hr hbelow howes).resolve_right ?_
        rw [hchoice]
        exact Bool.false_ne_true
      have hstill (hpaid : owes (derive live.log) node.id = false) :
          owes (derive live'.log) node.id = false := by
        by_contra hsome
        rw [(howes (Bool.not_eq_false _ ▸ hsome)).1] at hpaid
        cases hpaid
      rw [hlog', countP_snoc, ← hlog']
      cases hreroutes : reroutes node.id event with
      | false =>
        show Grew _ _ (_ + 0) _
        rcases hgrew with hsame | ⟨hlt, hle, hpaid⟩ | ⟨hone, hpast, hpaid⟩
        · exact Or.inl hsame
        · exact Or.inr (Or.inl ⟨hlt, hle, hstill hpaid⟩)
        · exact Or.inr (Or.inr ⟨hone, hpast, hstill hpaid⟩)
      | true =>
        have hnone : owes (derive live'.log) node.id = false := by
          by_contra hsome
          have hold := (howes (Bool.not_eq_false _ ▸ hsome)).2
          rw [hreroutes] at hold
          cases hold
        show Grew _ _ (_ + 1) _
        rcases reroute_paid hbounded hmay hreroutes with hunder | ⟨hcap, howed⟩
        · rcases hgrew with hsame | ⟨hlt, hle, -⟩ | ⟨-, hpast, -⟩
          · exact Or.inr (Or.inl ⟨by omega, by omega, hnone⟩)
          · exact Or.inr (Or.inl ⟨by omega, by omega, hnone⟩)
          · omega
        · -- only a `retry` from before the stretch is left to spend
          rcases hgrew with hsame | ⟨-, -, hpaid⟩ | ⟨-, -, hpaid⟩
          · exact Or.inr (Or.inr ⟨by omega, by omega, hnone⟩)
          · rw [howed] at hpaid
            cases hpaid
          · rw [howed] at hpaid
            cases hpaid

/-- A stretch with no choice about a node holds no `retry` of it. -/
theorem retries_of_quiet {node : NodeId} {stretch : List StoredEvent}
    (h : ∀ event ∈ stretch, chooses node event = false) : stretch.countP (retries node) = 0 := by
  rw [List.countP_eq_zero]
  intro event hmem hretry
  obtain ⟨chosen, hchosen, hboth⟩ := (Option.any_eq_true ..).mp hretry
  have hnone := h event hmem
  rw [chooses, hchosen] at hnone
  rw [Bool.and_eq_true] at hboth
  rw [Option.any_some, hboth.1] at hnone
  cases hnone

/-- **Between two choices** a node's `on_failure` reroutes it up to its cap, or, where that is none,
    the once a `retry` asked for. -/
theorem stretch_bounded (hdistinct : frozen.workflow.Distinct)
    (hnode : node ∈ frozen.workflow.nodes) {onFailure : OnFailure}
    (hdeclared : node.onFailure = some onFailure) {live : Live}
    (h : Reached (step frozen) Free born live) {before stretch after : List StoredEvent}
    (hlog : live.log = before ++ stretch ++ after)
    (hquiet : ∀ event ∈ stretch, chooses node.id event = false) :
    stretch.countP (reroutes node.id) ≤ onFailure.maxReroutes ∨
      onFailure.maxReroutes = 0 ∧ stretch.countP (reroutes node.id) = 1 ∧
        ∃ choice ∈ before, retries node.id choice = true := by
  obtain ⟨then_, hthen, hheld⟩ :=
    reached_prefix h (hlog ▸ List.prefix_append (before ++ stretch) after)
  have hcredit := (reached_bounded hdistinct hnode hdeclared hthen).credit
  have hgrew := stretch_grew hdistinct hnode hdeclared hthen hheld hquiet
  rw [hheld, List.countP_append] at hgrew
  rw [hheld, List.countP_append, List.countP_append, retries_of_quiet hquiet] at hcredit
  rcases hgrew with hsame | ⟨-, hle, -⟩ | ⟨hone, hpast, -⟩
  · exact Or.inl (by omega)
  · exact Or.inl (by omega)
  · by_cases hcap : onFailure.maxReroutes = 0
    · refine Or.inr ⟨hcap, by omega, ?_⟩
      obtain ⟨choice, hmem, hretry⟩ := List.countP_pos_iff.mp
        (show 0 < before.countP (retries node.id) by omega)
      exact ⟨choice, hmem, hretry⟩
    · exact Or.inl (by omega)

end

/-- **A failed node is corrected within its cap.**  In every run the scheduler drives, over any
    outcomes, restarts and answers: a node's `on_failure` reroutes it at most `max_reroutes` times
    beside one for each `retry` people chose, and between two choices about it at most
    `max_reroutes` times, or the once a `retry` asked for where that is none.  No reroute is decided
    for a failure that only waits for its limit's reset, that a frozen file or a repeated plan
    caused, or that a choice to run the node again answers. -/
theorem reroutes_bounded (frozen : Frozen) (hdistinct : frozen.workflow.Distinct) {live : Live}
    (h : Reached (step frozen) Free born live) (node : Node) (hnode : node ∈ frozen.workflow.nodes)
    {onFailure : OnFailure} (hdeclared : node.onFailure = some onFailure) :
    live.log.countP (reroutes node.id) ≤
        onFailure.maxReroutes + live.log.countP (retries node.id) ∧
      (∀ before stretch after, live.log = before ++ stretch ++ after →
        (∀ event ∈ stretch, chooses node.id event = false) →
          stretch.countP (reroutes node.id) ≤ onFailure.maxReroutes ∨
            onFailure.maxReroutes = 0 ∧ stretch.countP (reroutes node.id) = 1 ∧
              ∃ choice ∈ before, retries node.id choice = true) ∧
      ∀ policy goto attempt cap cause,
        decide frozen.workflow (derive live.log) policy = .reroute node.id goto attempt cap cause →
          ¬ cause.AwaitsReset
              ((Board.of frozen.workflow (derive live.log) policy).failedAt node) ∧
            ¬ cause.OfFrozenFile ∧ ¬ cause.RepeatsPlan ∧
            (isGate node = false → (derive live.log).runAgainChosen node.id = none) := by
  have hbounded := reached_bounded hdistinct hnode hdeclared h
  refine ⟨?_, fun before stretch after => stretch_bounded hdistinct hnode hdeclared h, ?_⟩
  · have hcredit := hbounded.credit
    omega
  · intro policy goto attempt cap cause hdecide
    obtain ⟨hbelow, hfailing, hcan⟩ := below_of_decide hdistinct hnode hdeclared hdecide
    obtain ⟨hwaits, hfrozen, hrepeats⟩ := Board.changes_of_can hcan
    refine ⟨hwaits, hfrozen, hrepeats, fun hgate => ?_⟩
    -- the choice would stand at the cap, and the reroute is decided below it
    by_contra hchosen
    obtain ⟨tokens, hstate⟩ := hfailing.state
    have hfailed : (derive live.log).failedUnder node.id = true := by
      unfold failedUnder
      rw [show (derive live.log).nodes.state node.id = _ from hstate]
      rfl
    have hcap := hbounded.stands hgate hfailed
      (standsAgain_of_chosen (Option.isSome_iff_ne_none.mpr hchosen))
    rw [← derive_reroutes node.id hbounded.accepted] at hcap
    omega

/-! ## Runs on fixed workflows -/

/-- One gate event of a node. -/
def gateEvent (seq : Nat) (node : NodeId) (e : GateEvent) : StoredEvent :=
  ⟨"", seq, 0, some node, .known (.gates e)⟩

/-- A person's answer about a node. -/
def answered (seq : Nat) (node : NodeId) (option : OptionId) : StoredEvent :=
  gateEvent seq node (.resolved (.chosen ⟨option, "", none⟩))

/-- A node that corrects itself through `fix`, which waits on nothing. -/
def correctedBy (node : NodeId) (kind : NodeKind) (deps : List NodeId) (cap : Nat) : Node :=
  ⟨node, kind, deps, some ⟨"fix", cap⟩, none, none, false, .unscoped⟩

def plainNode (node : NodeId) (kind : NodeKind) : Node :=
  ⟨node, kind, [], none, none, none, false, .unscoped⟩

def frozenWith (nodes : List Node) : Frozen := { workflow := ⟨nodes⟩, policy := onePolicy }

def lintFrozen (cap : Nat) : Frozen :=
  frozenWith [correctedBy "lint" .bash [] cap, plainNode "fix" .bash]

/-- `lint` fails, is corrected, fails again at its cap, and a person has it corrected once more. -/
def spentActs : List Act :=
  [.decide onePolicy, .event (nodeEvent 1 0 "lint" (.started ⟨1, none, none⟩)),
   .event (nodeEvent 2 0 "lint" (.failed ⟨.exited 1, {}, none⟩)), .decide onePolicy,
   .event (nodeEvent 3 0 "lint" (.rerouted ⟨"fix", .exited 1, some 1, some 1, .onFailure⟩)),
   .decide onePolicy, .event (nodeEvent 4 0 "fix" (.started ⟨1, none, none⟩)),
   .event (nodeEvent 5 0 "fix" (.finished {})), .decide onePolicy,
   .event (nodeEvent 6 0 "lint" (.started ⟨2, none, none⟩)),
   .event (nodeEvent 7 0 "lint" (.failed ⟨.exited 1, {}, none⟩)), .decide onePolicy,
   .event (gateEvent 8 "lint" (.waiting {})), .event (answered 9 "lint" "retry"),
   .event (nodeEvent 10 0 "lint" (.rerouted ⟨"fix", .exited 1, some 2, some 1, .onFailure⟩))]

theorem reroutes_bounded_spent :
    ∃ live, Reached (step (lintFrozen 1)) Free born live ∧
      live.log.countP (reroutes "lint") = 2 ∧ live.log.countP (retries "lint") = 1 ∧
      live.log.countP (reroutes "lint") ≤ 1 + live.log.countP (retries "lint") := by
  obtain ⟨live, hreached, hcounts⟩ := exists_reached (step (lintFrozen 1)) Free born spentActs
    (fun live => live.log.countP (reroutes "lint") = 2 && live.log.countP (retries "lint") = 1)
    (by decide +kernel)
  have hbounded := (reroutes_bounded (lintFrozen 1) (by decide +kernel) hreached
    (correctedBy "lint" .bash [] 1) (by simp [lintFrozen, frozenWith]) rfl).1
  rw [Bool.and_eq_true, decide_eq_true_eq, decide_eq_true_eq] at hcounts
  exact ⟨live, hreached, hcounts.1, hcounts.2, hbounded⟩

/-- `lint` declares no correction of its own, and a person has it corrected. -/
def retriedActs : List Act :=
  [.decide onePolicy, .event (nodeEvent 1 0 "lint" (.started ⟨1, none, none⟩)),
   .event (nodeEvent 2 0 "lint" (.failed ⟨.exited 1, {}, none⟩)), .decide onePolicy,
   .event (gateEvent 3 "lint" (.waiting {})), .event (answered 4 "lint" "retry"),
   .event (nodeEvent 5 0 "lint" (.rerouted ⟨"fix", .exited 1, some 1, some 0, .onFailure⟩))]

/-- Whether an event sends the run on from `node`, whatever the reroute comes of. -/
def leaves (node : NodeId) (event : StoredEvent) : Bool :=
  (rerouteOf event).any fun left => left.1 = node

/-- A loop that works through the plan of `spec`, and corrects itself through `fix`. -/
def buildFrozen : Frozen :=
  frozenWith [plainNode "spec" .prompt, correctedBy "build" .loop ["spec"] 1, plainNode "fix" .bash]

/-- A person accepts that a task's tests are wrong: the loop is sent back to the plan beside the
    reroute its own failure asks for. -/
def sentBackActs : List Act :=
  [.decide onePolicy, .event (nodeEvent 1 0 "spec" (.started ⟨1, none, none⟩)),
   .event (nodeEvent 2 0 "spec" (.finished {})), .decide onePolicy,
   .event (nodeEvent 3 0 "build" (.started ⟨1, none, none⟩)),
   .event (gateEvent 4 "build" (.waiting ⟨none, some .departure⟩)),
   .event (answered 5 "build" "accept"),
   .event (nodeEvent 6 0 "build" (.failed ⟨.testsAccepted "t" "spec", {}, none⟩)),
   .event (nodeEvent 7 0 "build"
     (.rerouted ⟨"spec", .testsAccepted "t" "spec", none, none, .gateChoice⟩)),
   .decide onePolicy, .event (nodeEvent 8 0 "spec" (.started ⟨2, none, none⟩)),
   .event (nodeEvent 9 0 "spec" (.finished {})), .decide onePolicy,
   .event (nodeEvent 10 0 "build" (.started ⟨2, none, none⟩)),
   .event (nodeEvent 11 0 "build" (.failed ⟨.exited 1, {}, none⟩)), .decide onePolicy,
   .event (nodeEvent 12 0 "build" (.rerouted ⟨"fix", .exited 1, some 1, some 1, .onFailure⟩))]

/-- `lint` fails once, with `failure`. -/
def failedActs (failure : Failure) : List Act :=
  [.decide onePolicy, .event (nodeEvent 1 0 "lint" (.started ⟨1, none, none⟩)),
   .event (nodeEvent 2 0 "lint" (.failed ⟨failure, {}, none⟩))]

/-- The plan a child run was refused for repeating. -/
def childRepeats : Failure := .childFailed "child" (.unchanged 1 (.planUnpassable []))

/-- **A cap is passed between two choices, and a correction tried in vain**: by the one reroute a
    `retry` asks for, by a choice that reroutes beside the cap, for a plan a child run repeated, and
    for a limit that names no reset. -/
theorem not_reroutes_bounded :
    (∃ live, Reached (step (lintFrozen 0)) Free born live ∧ ∃ before stretch,
      live.log = before ++ stretch ∧ (∀ event ∈ stretch, chooses "lint" event = false) ∧
        0 < stretch.countP (reroutes "lint")) ∧
    (∃ live, Reached (step buildFrozen) Free born live ∧ ∃ before stretch,
      live.log = before ++ stretch ∧ (∀ event ∈ stretch, chooses "build" event = false) ∧
        1 < stretch.countP (leaves "build")) ∧
    ∀ failure ∈ [childRepeats, .limit ⟨none, ""⟩],
      ∃ live, Reached (step (lintFrozen 1)) Free born live ∧
        decide (lintFrozen 1).workflow (derive live.log) onePolicy =
          .reroute "lint" "fix" 1 1 failure := by
  refine ⟨?_, ?_, ?_⟩
  · obtain ⟨live, hreached, hpast⟩ := exists_reached (step (lintFrozen 0)) Free born retriedActs
      (fun live => ((live.log.drop 4).all fun event => !chooses "lint" event) &&
        0 < (live.log.drop 4).countP (reroutes "lint")) (by decide +kernel)
    rw [Bool.and_eq_true, List.all_eq_true, decide_eq_true_eq] at hpast
    exact ⟨live, hreached, _, _, (List.take_append_drop 4 live.log).symm,
      fun event hmem => by simpa using hpast.1 event hmem, hpast.2⟩
  · obtain ⟨live, hreached, hpast⟩ := exists_reached (step buildFrozen) Free born sentBackActs
      (fun live => ((live.log.drop 5).all fun event => !chooses "build" event) &&
        1 < (live.log.drop 5).countP (leaves "build")) (by decide +kernel)
    rw [Bool.and_eq_true, List.all_eq_true, decide_eq_true_eq] at hpast
    exact ⟨live, hreached, _, _, (List.take_append_drop 5 live.log).symm,
      fun event hmem => by simpa using hpast.1 event hmem, hpast.2⟩
  · intro failure hmem
    have hrun : ∀ failure ∈ [childRepeats, .limit ⟨none, ""⟩],
        (run (step (lintFrozen 1)) Free born (failedActs failure)).any (fun live =>
          decide (lintFrozen 1).workflow (derive live.log) onePolicy =
            .reroute "lint" "fix" 1 1 failure) = true := by decide +kernel
    obtain ⟨live, hreached, hdecides⟩ := exists_reached (step (lintFrozen 1)) Free born
      (failedActs failure) _ (hrun failure hmem)
    exact ⟨live, hreached, of_decide_eq_true hdecides⟩

end Reroutes

end Yunta
