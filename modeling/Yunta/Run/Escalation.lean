/-
  What a run asks a person, and whether it waits on one.

  1. **Menus** — an escalation is built for a node whose reroutes are exhausted, for a failure left
     to a person, and for a gate answered here, from the documents the gate shows.

  2. **Two readings** — `currentEscalation` rebuilds the menu under the set the run protects;
     `awaitsDecision` names the node under the empty set, and reads nothing.

  3. **What the set decides** — protection only says whether a failure's menu holds a grant
     (`remedies_mayGrant`), so the two schedule alike but where a person chose that grant already
     (`asks_decide`).

  4. **Main result** — `awaits_iff`: the two agree exactly where a gate the run asks at is one it
     can ask at, and the set withdraws no choice a person made about the failure at hand.  A node of
     another kind that a crash left waiting is named and has no menu (`not_awaits`).
-/
import Yunta.Check.Sources
import Yunta.Ledgers.Findings
import Yunta.Lib.Text
import Yunta.Replay.Lifecycle
import Yunta.Schedule.Decide

set_option linter.unusedVariables false

namespace Yunta

/-! ## Escalations -/

/-- The question a decision answers. -/
inductive Claim where
  | nodeFailed (node : NodeId)
  | written (message : String)
  | approvePlan (summary : String)
  | needsDecision (node : NodeId)
  deriving DecidableEq

/-- A document a gate shows, as the run holds it. -/
structure Shown where
  producer : Option NodeId
  artifact : ArtifactId
  contentHash : ContentHash
  deriving DecidableEq

/-- The reroute a menu closes. -/
structure ExhaustedReroute where
  goto : NodeId
  maxReroutes : Nat
  nextMode : Option ModeName
  deriving DecidableEq

/-- What a menu is about. -/
inductive Asking where
  | failure (attempt : Nat) (failure : Failure) (remedies : List Remedy) (stuck : Option Stuck)
      (reroute : Option ExhaustedReroute)
  | gate (assignee : String) (node : NodeId)
  deriving DecidableEq

/-- What a person is asked: the claim, what it is about, the options in the order they read, the
    documents shown, and the options withheld. -/
structure Escalation where
  claim : Claim
  menu : Asking
  options : List OptionId
  shows : List Shown := []
  withheld : List OptionId := []
  deriving DecidableEq

namespace Escalation

/-- The escalation of a node whose reroutes are exhausted. -/
def buildReroute (nextMode : Option ModeName) (node goto : NodeId) (maxReroutes : Nat)
    (cause : Failure) : Escalation where
  claim := .nodeFailed node
  menu := .failure (maxReroutes + 1) cause [] none (some ⟨goto, maxReroutes, nextMode⟩)
  options :=
    [ReservedOption.retry.asStr, ReservedOption.abort.asStr] ++
      if nextMode.isSome then [ReservedOption.promote.asStr] else []

/-- The reserved options the remedies name, each once and in the order they first name it, without
    abort. -/
def namedOptions (remedies : List Remedy) : List ReservedOption :=
  remedies.foldl (fun named remedy =>
    if remedy.option ≠ .abort ∧ remedy.option ∉ named then named ++ [remedy.option] else named) []

/-- The escalation of a failure left to a person: its remedies' options, and abort. -/
def buildFailure (node : NodeId) (failure : Failure) (next : Nat) (outlook : Outlook) :
    Escalation :=
  let remedies :=
    match outlook with
    | .choose remedies => remedies
    | _ => []
  let stuck :=
    match outlook with
    | .stuck stuck => some stuck
    | _ => none
  { claim := .nodeFailed node
    menu := .failure next failure remedies stuck none
    options := (namedOptions remedies).map (·.asStr) ++ [ReservedOption.abort.asStr] }

end Escalation

/-! ## Gates answered here -/

/-- What a gate declares beside what scheduling reads of it: who answers it, its question and its
    options, and whose document each it shows is. -/
structure GateWords where
  assignee : String := ""
  message : Option String := none
  options : List OptionId := []
  producers : List (Option NodeId) := []

/-- A gate a person answers here. -/
structure InternalGate where
  node : NodeId
  assignee : String
  message : Option String
  options : List OptionId
  on : List (OptionId × NodeId)
  shows : List Written.ArtifactContextRef
  deriving DecidableEq

inductive GateEscalationError where
  | notHeld (artifact : ArtifactId) (producer : Option NodeId)
  | view
  deriving DecidableEq

/-- What reading the documents a gate shows says: the change a plan names, and whether one is not
    provable as it is written; and the bytes' hash of the findings' view, none where they cannot be
    written. -/
structure Reader where
  changeShown : List Shown → Option String
  flawed : List Shown → Bool
  view : FindingLedger → Option ContentHash

namespace InternalGate

/-- `node` as a gate answered here; none for any other node. -/
def of (words : NodeId → GateWords) (node : Node) : Option InternalGate :=
  match node.kind with
  | .gate on shows false =>
    let said := words node.id
    some ⟨node.id, said.assignee, said.message, said.options, on,
      shows.zipIdx.map fun (id, i) => ⟨(said.producers[i]?).join, id⟩⟩
  | _ => none

/-- Whether a reference asks for the run's findings. -/
def isView (reference : Written.ArtifactContextRef) : Bool :=
  reference.node.isNone && Written.refIdentity reference.id = .interpreted .findings

/-- Whether what is shown is the view, rather than a node's findings document. -/
def showsView (shown : Shown) : Bool :=
  shown.producer.isNone && shown.artifact = .interpreted .findings

/-- Whether choosing `option` pauses the run. -/
def aborts (option : OptionId) : Bool := ReservedOption.of option = some .abort

variable (reader : Reader) (gate : InternalGate) (state : RunState)

/-- One document the gate shows, as the run holds it now. -/
def shownOf (reference : Written.ArtifactContextRef) : Except GateEscalationError Shown :=
  let artifact := Written.refIdentity reference.id
  if isView reference then
    match reader.view state.findings with
    | some hash => .ok ⟨none, .interpreted .findings, hash⟩
    | none => .error .view
  else
    match state.artifacts.latest artifact reference.node with
    | some held => .ok ⟨held.producer, held.artifact, held.contentHash⟩
    | none => .error (.notHeld artifact reference.node)

/-- Each document the gate shows. -/
def shown : Except GateEscalationError (List Shown) := gate.shows.mapM (shownOf reader state)

/-- The question a gate asks. -/
def claim (shown : List Shown) : Claim :=
  match gate.message.filter fun message => Text.trim message ≠ "" with
  | some message => .written message
  | none =>
    match reader.changeShown shown with
    | some summary => .approvePlan summary
    | none => .needsDecision gate.node

/-- The gate's options: those it declares, `approve` where it declares none, and `abort`. -/
def menuOptions : List OptionId :=
  let declared :=
    if gate.options.isEmpty then [ReservedOption.approve.asStr] else gate.options
  if declared.any aborts then declared else declared ++ [ReservedOption.abort.asStr]

/-- **`InternalGate::asked`**: what the gate asks, from the documents it shows.  A plan that cannot
    be proven leaves only the options that send it back or stop it. -/
def asked : Except GateEscalationError Escalation :=
  match gate.shown reader state with
  | .error error => .error error
  | .ok shows =>
    let read := shows.filter fun shown => !showsView shown
    let options := gate.menuOptions
    .ok {
      claim := gate.claim reader read
      menu := .gate gate.assignee gate.node
      options
      shows
      withheld :=
        if reader.flawed read then
          options.filter fun option => !aborts option && (gate.on.lookup option).isNone
        else [] }

/-- Whether the run holds what a reference asks for. -/
def holds (reference : Written.ArtifactContextRef) : Bool :=
  if isView reference then (reader.view state.findings).isSome
  else (state.artifacts.latest (Written.refIdentity reference.id) reference.node).isSome

theorem shownOf_ok (reference : Written.ArtifactContextRef) :
    (∃ shown, shownOf reader state reference = .ok shown) ↔
      holds reader state reference = true := by
  unfold shownOf holds
  cases isView reference with
  | true => cases reader.view state.findings <;> simp
  | false =>
    cases hheld : state.artifacts.latest (Written.refIdentity reference.id) reference.node with
    | none => simp [hheld]
    | some held => simp [hheld]

/-- **A gate asks where the run holds each document it shows.** -/
theorem asked_ok :
    (∃ escalation, gate.asked reader state = .ok escalation) ↔
      gate.shows.all (holds reader state) = true := by
  have hshown : (∃ shown, gate.shown reader state = .ok shown) ↔
      gate.shows.all (holds reader state) = true := by
    unfold shown
    induction gate.shows with
    | nil => exact ⟨fun _ => rfl, fun _ => ⟨[], rfl⟩⟩
    | cons reference rest ih =>
      rw [List.all_cons, Bool.and_eq_true, ← shownOf_ok, ← ih, List.mapM_cons]
      cases shownOf reader state reference with
      | error error => simp [Bind.bind, Except.bind]
      | ok first =>
        cases rest.mapM (shownOf reader state) with
        | error error => simp [Bind.bind, Except.bind]
        | ok others => simp [Bind.bind, Except.bind, Pure.pure, Except.pure]
  rw [← hshown]
  unfold asked
  cases gate.shown reader state with
  | error error => simp
  | ok shows => simp

end InternalGate

/-! ## The two readings -/

namespace RunState

/-- The latest resolution of `node`'s gate, while nothing has acted on it. -/
def preSeeded (s : RunState) (node : NodeId) : Option (GateResolvedPayload × Nat) :=
  ((s.gates.get node).bind (·.resolved.getLast?)).filter fun resolution =>
    s.unconsumed node resolution.2

/-- Whether a person's answer to what the run is parked on waits for the resume that acts on it. -/
def answerAwaitsItsResume (s : RunState) : Bool :=
  s.run.paused.isSome && s.gates.perNode.keys.any fun node => (s.preSeeded node).isSome

end RunState

/-- What a run was frozen with: its workflow, the policy it is scheduled under with what it
    protects, the mode after its own, and what its gates say. -/
structure Frozen where
  workflow : Workflow
  policy : Policy
  nextMode : Option ModeName := none
  words : NodeId → GateWords := fun _ => {}

/-- The policy under the empty set. -/
def Policy.unprotected (policy : Policy) : Policy := { policy with reachedBy := fun _ => none }

namespace Frozen

variable (frozen : Frozen) (state : RunState)

/-- The scheduler's decision, when it is one of the three with a menu and its answer is not waiting
    for a resume. -/
def currentDecision (policy : Policy) : Option Decision :=
  if state.answerAwaitsItsResume then none
  else
    match decide frozen.workflow state policy with
    | .gateExhaustedReroutes node goto maxReroutes cause =>
      some (.gateExhaustedReroutes node goto maxReroutes cause)
    | .escalateFailure node failure next outlook =>
      some (.escalateFailure node failure next outlook)
    | .resolveInternalGate node => some (.resolveInternalGate node)
    | _ => none

/-- The menu of a decision that reads no document. -/
def menuOf : Decision → Option (NodeId × Escalation)
  | .gateExhaustedReroutes node goto maxReroutes cause =>
    some (node, .buildReroute frozen.nextMode node goto maxReroutes cause)
  | .escalateFailure node failure next outlook =>
    some (node, .buildFailure node failure next outlook)
  | _ => none

/-- The gate answered here that the workflow holds under an id. -/
def gateAt (id : NodeId) : Option InternalGate :=
  (frozen.workflow.nodes.find? fun node => node.id = id).bind (InternalGate.of frozen.words)

/-- **`current_escalation`**, with the documents the run holds readable. -/
def currentEscalation (reader : Reader) : Option (NodeId × Escalation) :=
  match frozen.currentDecision state frozen.policy with
  | some (.resolveInternalGate id) =>
    match frozen.gateAt id with
    | some gate =>
      match gate.asked reader state with
      | .ok escalation => some (gate.node, escalation)
      | .error _ => none
    | none => none
  | some decision => frozen.menuOf decision
  | none => none

/-- **`awaits_decision`**: the node a parked run waits on a decision from. -/
def awaitsDecision : Option NodeId :=
  match frozen.currentDecision state frozen.policy.unprotected with
  | some (.resolveInternalGate node) => some node
  | some decision => (frozen.menuOf decision).map (·.1)
  | none => none

end Frozen

/-! ## What a menu holds, and whether a grant may be in it -/

/-- Whether an outlook waits for a reset. -/
def Outlook.waits : Outlook → Bool
  | .waitUntil _ => true
  | _ => false

theorem scopeOutlook_waits (facts : Facts) : (scopeOutlook facts).waits = false := by
  unfold scopeOutlook
  split <;> rfl

namespace Failure

/-- **A failure's outlook reads whether a grant is allowed only to offer it**: it is a request's, an
    owed request's, or the same either way. -/
theorem remedies_mayGrant (facts : Facts) (failure : Failure) :
    (∀ may, failure.remedies { facts with mayGrant := may } = failure.remedies facts) ∨
      (∀ may, failure.remedies { facts with mayGrant := may } =
        scopeOutlook { facts with mayGrant := may }) ∨
      ∀ may, failure.remedies { facts with mayGrant := may } =
        owedScopeOutlook { facts with mayGrant := may } := by
  induction failure with
  | scopeOwed => exact .inr (.inr fun _ => rfl)
  | scopeViolated => exact .inr (.inl fun _ => rfl)
  | scopeRequested => exact .inr (.inl fun _ => rfl)
  | childFailed _ child ih => exact ih
  | unchanged since inner ih =>
    by_cases hplan : ∃ tasks, inner = .planUnpassable tasks
    · obtain ⟨tasks, rfl⟩ := hplan
      exact .inl fun _ => rfl
    · have hreads (f : Facts) : (unchanged since inner).remedies f =
          if f.treeMoved then inner.remedies f else .stuck .treeUnchanged := by
        cases inner with
        | planUnpassable tasks => exact absurd ⟨tasks, rfl⟩ hplan
        | _ => rfl
      by_cases hmoved : facts.treeMoved = true
      · have hinner (may : Bool) : (unchanged since inner).remedies { facts with mayGrant := may } =
            inner.remedies { facts with mayGrant := may } := (hreads _).trans (if_pos hmoved)
        simp only [hinner]
        exact ih
      · have hstill (f : Facts) (hf : f.treeMoved = facts.treeMoved) :
            (unchanged since inner).remedies f = .stuck .treeUnchanged :=
          (hreads f).trans (if_neg (hf ▸ hmoved))
        exact .inl fun may =>
          (hstill { facts with mayGrant := may } rfl).trans (hstill facts rfl).symm
  | _ => exact .inl fun _ => rfl

/-- Whether a failure waits for a reset does not read the grant. -/
theorem remedies_waits (facts : Facts) (failure : Failure) (may : Bool) :
    (failure.remedies { facts with mayGrant := may }).waits = (failure.remedies facts).waits := by
  obtain h | h | h := remedies_mayGrant facts failure
  · rw [h]
  · rw [h may, show failure.remedies facts = scopeOutlook facts from h facts.mayGrant,
      scopeOutlook_waits, scopeOutlook_waits]
  · rw [h may, show failure.remedies facts = owedScopeOutlook facts from h facts.mayGrant]
    rfl

/-- One that waits for a reset is the same either way. -/
theorem remedies_of_waits {facts : Facts} {failure : Failure}
    (hwaits : (failure.remedies facts).waits = true) (may : Bool) :
    failure.remedies { facts with mayGrant := may } = failure.remedies facts := by
  obtain h | h | h := remedies_mayGrant facts failure
  · exact h may
  · rw [show failure.remedies facts = scopeOutlook facts from h facts.mayGrant,
      scopeOutlook_waits] at hwaits
    cases hwaits
  · rw [show failure.remedies facts = owedScopeOutlook facts from h facts.mayGrant] at hwaits
    cases hwaits

end Failure

/-- Nor does whether a reroute can change how it ends. -/
theorem Board.correctionCanChange_mayGrant (facts : Facts) (failure : Failure) (may : Bool) :
    Board.correctionCanChange failure (failure.remedies { facts with mayGrant := may }) =
      Board.correctionCanChange failure (failure.remedies facts) := by
  obtain h | h | h := failure.remedies_mayGrant facts
  · rw [h]
  · have hfacts := h facts.mayGrant
    rw [h may, show failure.remedies facts = scopeOutlook facts from hfacts]
    unfold scopeOutlook Board.correctionCanChange
    cases may <;> cases facts.mayGrant <;> rfl
  · have hfacts := h facts.mayGrant
    rw [h may, show failure.remedies facts = owedScopeOutlook facts from hfacts]
    rfl

/-! ## What the set decides -/

/-- The node a decision asks a person about, where it is one with a menu. -/
def Decision.asks : Decision → Option NodeId
  | .gateExhaustedReroutes node _ _ _ => some node
  | .escalateFailure node _ _ _ => some node
  | .resolveInternalGate node => some node
  | _ => none

namespace Board

variable (board : Board)

/-- The board under the empty set. -/
def unprotected : Board := { board with policy := board.policy.unprotected }

/-- A failure that waits for no reset is left to a person, but a gate's. -/
theorem pausedFailure_of_waits {node : Node} {failure : Failure} {outlook : Outlook}
    (h : outlook.waits = false) :
    board.pausedFailure node failure outlook =
      if isGate node then .pause (.nodeFailed node.id failure)
      else if board.retryChosen node.id outlook then
        .execute [(node.id, board.nextAttempt node.id)]
      else .escalateFailure node.id failure (board.nextAttempt node.id) outlook := by
  cases outlook with
  | waitUntil at_ => cases h
  | choose remedies => rfl
  | stuck reason => rfl

/-- The failure of `node` that is left to a person, with what can change it: nothing rerouted it or
    will, it waits for no reset, and the policy pauses on it. -/
def leftTo (node : Node) : Option (Failure × Outlook) :=
  match board.state.nodes.state node.id with
  | some (.failed failure _) =>
    let record := (board.state.nodes.get node.id).getD {}
    let outlook := failure.remedies (board.factsOf node failure (record.lastTerminalAt.getD 0))
    let rerouted := record.lastReroute.filter fun reroute => record.lastFailed.all (· < reroute.seq)
    let reroutes := node.onFailure.filter fun _ => correctionCanChange failure outlook
    if rerouted.isNone ∧ reroutes.isNone ∧ board.policy.onFailure = .pause ∧ isGate node = false ∧
        outlook.waits = false then
      some (failure, outlook)
    else none
  | _ => none

/-- **A failure left to a person runs its node again where they chose that, and asks them
    otherwise.** -/
theorem failureOf_leftTo {node : Node} {failure : Failure} {outlook : Outlook}
    (h : board.leftTo node = some (failure, outlook)) :
    board.failureOf node = some (
      if board.retryChosen node.id outlook then .execute [(node.id, board.nextAttempt node.id)]
      else .escalateFailure node.id failure (board.nextAttempt node.id) outlook) := by
  unfold leftTo at h
  unfold failureOf
  cases hstate : board.state.nodes.state node.id with
  | none => simp [hstate] at h
  | some state =>
    cases state with
    | failed cause attempt =>
      simp only [hstate, Option.ite_none_right_eq_some, Option.isNone_iff_eq_none] at h ⊢
      obtain ⟨⟨hrerouted, hreroutes, hpause, hgate, hwaits⟩, hleft⟩ := h
      obtain ⟨rfl, rfl⟩ := Prod.mk.inj (Option.some.inj hleft)
      simp [hrerouted, unrerouted, hreroutes, hpause, board.pausedFailure_of_waits hwaits, hgate]
    | _ => simp [hstate] at h

@[simp] theorem unprotected_state : board.unprotected.state = board.state := rfl

theorem waitsFor_unprotected (on : NodeId) (fuel : Nat) (stack seen : List NodeId) :
    board.unprotected.waitsFor on fuel stack seen = board.waitsFor on fuel stack seen := by
  induction fuel generalizing stack seen with
  | zero => rfl
  | succ fuel ih =>
    cases stack with
    | nil => rfl
    | cons dep stack =>
      unfold waitsFor
      rw [ih, ih]
      rfl

/-- Where a reroute got to does not read the set. -/
theorem afterReroute_unprotected (node : Node) (goto : NodeId) (rerouteSeq : Nat) :
    board.unprotected.afterReroute node goto rerouteSeq =
      board.afterReroute node goto rerouteSeq := by
  have hdepends : board.unprotected.dependsOn = board.dependsOn := by
    funext id on
    exact board.waitsFor_unprotected on _ _ _
  have hbetween : board.unprotected.between = board.between := by
    unfold between
    rw [hdepends]
    rfl
  have hstale : board.unprotected.staleBetween = board.staleBetween := by
    unfold staleBetween
    rw [hbetween]
    rfl
  unfold afterReroute
  rw [hstale]
  rfl

/-- A paused failure is answered alike where it waits for a reset or is a gate's. -/
theorem pausedFailure_unprotected {node : Node} {failure : Failure} {failedAt : Int}
    (h : isGate node = false →
      (failure.remedies (board.factsOf node failure failedAt)).waits = true) :
    board.unprotected.pausedFailure node failure
        (failure.remedies (board.unprotected.factsOf node failure failedAt)) =
      board.pausedFailure node failure
        (failure.remedies (board.factsOf node failure failedAt)) := by
  have hfacts : board.unprotected.factsOf node failure failedAt =
      { board.factsOf node failure failedAt with
        mayGrant := board.unprotected.grantable node failure } := rfl
  cases hwaits : (failure.remedies (board.factsOf node failure failedAt)).waits with
  | true =>
    rw [hfacts, Failure.remedies_of_waits hwaits]
    rfl
  | false =>
    have hgate : isGate node = true := by
      by_contra hnot
      rw [h (Bool.not_eq_true _ ▸ hnot)] at hwaits
      cases hwaits
    have hwaits' : (failure.remedies (board.unprotected.factsOf node failure failedAt)).waits =
        false := by
      rw [hfacts, Failure.remedies_waits, hwaits]
    rw [pausedFailure_of_waits _ hwaits', pausedFailure_of_waits _ hwaits, if_pos hgate,
      if_pos hgate]

/-- A failure with no reroute after it is answered alike, unless it is left to a person. -/
theorem unrerouted_unprotected {node : Node} {failure : Failure} (reroutes : Nat) {failedAt : Int}
    (h : (node.onFailure.filter fun _ => correctionCanChange failure
          (failure.remedies (board.factsOf node failure failedAt))) = none →
        board.policy.onFailure = .pause → isGate node = false →
        (failure.remedies (board.factsOf node failure failedAt)).waits = true) :
    board.unprotected.unrerouted node failure reroutes failedAt =
      board.unrerouted node failure reroutes failedAt := by
  have hcan : correctionCanChange failure
        (failure.remedies (board.unprotected.factsOf node failure failedAt)) =
      correctionCanChange failure (failure.remedies (board.factsOf node failure failedAt)) :=
    correctionCanChange_mayGrant (board.factsOf node failure failedAt) failure _
  unfold unrerouted
  simp only [hcan]
  cases hreroutes : node.onFailure.filter fun _ => correctionCanChange failure
      (failure.remedies (board.factsOf node failure failedAt)) with
  | some onFailure => rfl
  | none =>
    dsimp only
    rw [show board.unprotected.policy.onFailure = board.policy.onFailure from rfl]
    cases hpolicy : board.policy.onFailure with
    | pause => exact congrArg some (board.pausedFailure_unprotected (h hreroutes hpolicy))
    | abort => rfl
    | continue_ => rfl

/-- **Every other failure is answered alike.** -/
theorem failureOf_unprotected {node : Node} (h : board.leftTo node = none) :
    board.unprotected.failureOf node = board.failureOf node := by
  unfold leftTo at h
  unfold failureOf
  simp only [unprotected_state, afterReroute_unprotected]
  cases hstate : board.state.nodes.state node.id with
  | none => rfl
  | some state =>
    cases state with
    | failed cause attempt =>
      simp only [hstate] at h ⊢
      cases hreroute : ((board.state.nodes.get node.id).getD {}).lastReroute.filter fun reroute =>
          ((board.state.nodes.get node.id).getD {}).lastFailed.all (· < reroute.seq) with
      | some reroute => rfl
      | none =>
        apply unrerouted_unprotected
        intro hreroutes hpause hgate
        by_contra hwaits
        simp [hreroute, hreroutes, hpause, hgate, hwaits] at h
    | _ => rfl

/-- The same failures are left to a person under the empty set. -/
theorem leftTo_unprotected {node : Node} {failure : Failure} {outlook : Outlook}
    (h : board.leftTo node = some (failure, outlook)) :
    ∃ outlook', board.unprotected.leftTo node = some (failure, outlook') := by
  unfold leftTo at h ⊢
  simp only [unprotected_state]
  cases hstate : board.state.nodes.state node.id with
  | none => simp [hstate] at h
  | some state =>
    cases state with
    | failed cause attempt =>
      simp only [hstate, Option.ite_none_right_eq_some, Option.isNone_iff_eq_none] at h ⊢
      obtain ⟨⟨hrerouted, hreroutes, hpause, hgate, hwaits⟩, hleft⟩ := h
      obtain ⟨rfl, rfl⟩ := Prod.mk.inj (Option.some.inj hleft)
      refine ⟨_, ⟨hrerouted, ?_, hpause, hgate, ?_⟩, rfl⟩
      · exact (congrArg (fun can => node.onFailure.filter fun _ => can)
          (correctionCanChange_mayGrant _ cause _)).trans hreroutes
      · exact (Failure.remedies_waits _ cause _).trans hwaits
    | _ => simp [hstate] at h

/-! ## Grants the set withdraws -/

/-- A set offers no scope the empty one does not. -/
theorem nodeOffer_unprotected {paths offered : List ScopeGlob}
    {reachedBy : ScopeGlob → Option Protection} {widenable : Bool}
    (h : nodeOffer paths reachedBy widenable = .ok offered) :
    nodeOffer paths (fun _ => none) widenable = .ok offered := by
  have hnone : reaching paths (fun _ => none) = [] := by simp [reaching]
  unfold nodeOffer at h ⊢
  rw [hnone]
  cases widenable with
  | false => exact h
  | true =>
    cases hreached : (reaching paths reachedBy).any fun reach => !reach.2.personMayGrant with
    | true => simp [hreached] at h
    | false => simpa [hreached] using h

/-- The empty set offers every grant another set does. -/
theorem grantable_unprotected {node : Node} {failure : Failure}
    (h : board.grantable node failure = true) :
    board.unprotected.grantable node failure = true := by
  have hoffer {paths offered : List ScopeGlob} {writes wants : Bool}
      (hok : nodeOffer paths board.policy.reachedBy
        (board.policy.grantsScope && writes && wants) = .ok offered) :
      nodeOffer paths board.unprotected.policy.reachedBy
        (board.unprotected.policy.grantsScope && writes && wants) = .ok offered :=
    nodeOffer_unprotected hok
  unfold grantable at h ⊢
  cases failure with
  | scopeOwed owed =>
    rw [List.any_eq_true] at h ⊢
    obtain ⟨request, hmem, hok⟩ := h
    refine ⟨request, hmem, ?_⟩
    dsimp only at hok ⊢
    split at hok
    · next offered hoffered => rw [hoffer hoffered]
    · cases hok
  | _ =>
    rw [Option.any_eq_true] at h ⊢
    obtain ⟨wanted, hwanted, hok⟩ := h
    refine ⟨wanted, hwanted, ?_⟩
    split at hok
    · next offered hoffered => rw [hoffer hoffered]
    · cases hok

/-- What a person is left with: the failure's outlook, on the facts the log holds. -/
theorem leftTo_outlook {node : Node} {failure : Failure} {outlook : Outlook}
    (h : board.leftTo node = some (failure, outlook)) :
    outlook = failure.remedies (board.factsOf node failure
      (((board.state.nodes.get node.id).getD {}).lastTerminalAt.getD 0)) := by
  unfold leftTo at h
  cases hstate : board.state.nodes.state node.id with
  | none => simp [hstate] at h
  | some state =>
    cases state with
    | failed cause attempt =>
      simp only [hstate, Option.ite_none_right_eq_some] at h
      obtain ⟨rfl, rfl⟩ := Prod.mk.inj (Option.some.inj h.2)
      rfl
    | _ => simp [hstate] at h

/-- **A choice to run a node again that stands under a set stands under the empty one.** -/
theorem retryChosen_unprotected {node : Node} {failure : Failure} {outlook outlook' : Outlook}
    (h : board.leftTo node = some (failure, outlook))
    (h' : board.unprotected.leftTo node = some (failure, outlook'))
    (hchosen : board.retryChosen node.id outlook = true) :
    board.retryChosen node.id outlook' = true := by
  generalize hfacts : board.factsOf node failure
    (((board.state.nodes.get node.id).getD {}).lastTerminalAt.getD 0) = facts
  have hgrant : facts.mayGrant = board.grantable node failure := by rw [← hfacts]; rfl
  have ho : outlook = failure.remedies facts := hfacts ▸ board.leftTo_outlook h
  have ho' : outlook' = failure.remedies
      { facts with mayGrant := board.unprotected.grantable node failure } :=
    hfacts ▸ board.unprotected.leftTo_outlook h'
  cases hmay : board.grantable node failure with
  | true =>
    -- the set offers the grant, so the menus are one
    have hsame : outlook' = outlook := by
      rw [ho', ho, board.grantable_unprotected hmay, ← hmay, ← hgrant]
    rwa [hsame]
  | false =>
    have hfalse : facts.mayGrant = false := hgrant.trans hmay
    obtain hr | hr | hr := failure.remedies_mayGrant facts
    · rwa [ho', hr, ← ho]
    · have hstuck : outlook = .stuck .noGrant := by
        rw [ho, show failure.remedies facts = scopeOutlook facts from hr facts.mayGrant,
          scopeOutlook, hfalse]
        rfl
      rw [hstuck] at hchosen
      cases hchosen
    · have hdeny : outlook = .choose [⟨.deny, none⟩] := by
        rw [ho, show failure.remedies facts = owedScopeOutlook facts from hr facts.mayGrant,
          owedScopeOutlook, hfalse]
        rfl
      rw [ho', hr, owedScopeOutlook]
      rw [hdeny] at hchosen
      unfold retryChosen at hchosen ⊢
      rw [Option.any_eq_true] at hchosen ⊢
      obtain ⟨option, hoption, hany⟩ := hchosen
      refine ⟨option, hoption, ?_⟩
      rw [List.any_append, hany, Bool.or_true]

/-- Whether a person chose to run again the node whose failure is left to them. -/
def chosen (node : Node) : Bool :=
  (board.leftTo node).any fun left => board.retryChosen node.id left.2

/-- What the questions before the failures answer. -/
def earlier : Option Decision :=
  gateStep board <|> waitingStep board <|> answeredStep board <|> orphanStep board

/-- The node whose failure the run turns to, where no earlier question answers. -/
def failing : Option Node :=
  if board.earlier.isSome then none
  else board.nodes.find? fun node => (board.failureOf node).isSome

/-- Whether the set withdraws the choice a person made about the failure the run turns to: its menu
    holds the grant they chose under the empty set, and not under this one. -/
def withdraws : Bool :=
  board.failing.any fun node =>
    (board.leftTo node).isSome && board.unprotected.chosen node && !board.chosen node

/-- Two decisions that ask alike: the same, or about the same failure of the same node. -/
inductive Alike : Decision → Decision → Prop
  | same (decision : Decision) : Alike decision decision
  | failure (node : NodeId) (failure : Failure) (next : Nat) (outlook outlook' : Outlook) :
    Alike (.escalateFailure node failure next outlook') (.escalateFailure node failure next outlook)

/-- The set withdraws a choice: a failure is asked about again that the empty set runs again. -/
inductive Withdrawn : Decision → Decision → Prop
  | mk (node : NodeId) (failure : Failure) (next : Nat) (outlook : Outlook) :
    Withdrawn (.execute [(node, next)]) (.escalateFailure node failure next outlook)

theorem failureOf_isSome_unprotected (node : Node) :
    (board.unprotected.failureOf node).isSome = (board.failureOf node).isSome := by
  cases hleft : board.leftTo node with
  | none => rw [board.failureOf_unprotected hleft]
  | some left =>
    obtain ⟨outlook', hleft'⟩ := board.leftTo_unprotected hleft
    rw [board.failureOf_leftTo hleft, board.unprotected.failureOf_leftTo hleft']
    rfl

/-- The failures are asked about one at a time: the first that asks for anything answers. -/
theorem failureStep_eq :
    failureStep board =
      (board.nodes.find? fun node => (board.failureOf node).isSome).bind board.failureOf := by
  unfold failureStep
  induction board.nodes with
  | nil => rfl
  | cons node nodes ih =>
    cases hfailure : board.failureOf node with
    | none => simp [hfailure, ih]
    | some decision => simp [hfailure]

/-- **What the first failure answers**: under a set that withdraws the choice a person made about
    it, the run asks again; under any other, it asks what it asks under the empty set. -/
theorem failureOf_find {node : Node} (hleft : (board.leftTo node).isSome = true)
    {decision decision' : Decision} (h : board.failureOf node = some decision)
    (h' : board.unprotected.failureOf node = some decision') :
    if board.unprotected.chosen node && !board.chosen node then Withdrawn decision' decision
    else Alike decision' decision := by
  obtain ⟨⟨failure, outlook⟩, hleft⟩ := Option.isSome_iff_exists.mp hleft
  obtain ⟨outlook', hleft'⟩ := board.leftTo_unprotected hleft
  rw [board.failureOf_leftTo hleft, Option.some.injEq] at h
  rw [board.unprotected.failureOf_leftTo hleft', Option.some.injEq] at h'
  have hchosen : board.chosen node = board.retryChosen node.id outlook := by simp [chosen, hleft]
  have hchosen' : board.unprotected.chosen node = board.retryChosen node.id outlook' := by
    simp only [chosen, hleft', Option.any_some]
    rfl
  rw [hchosen, hchosen', ← h, ← h']
  show if _ then Withdrawn (if board.retryChosen node.id outlook' = true then _ else _) _
    else Alike (if board.retryChosen node.id outlook' = true then _ else _) _
  cases hunder : board.retryChosen node.id outlook with
  | true =>
    rw [board.retryChosen_unprotected hleft hleft' hunder]
    exact .same _
  | false =>
    cases board.retryChosen node.id outlook' with
    | true => exact .mk ..
    | false => exact .failure ..

/-- The questions, up to the failures and from them. -/
theorem next_eq :
    board.next =
      (board.earlier <|> failureStep board <|> reverifyStep board).getD (readyBatch board) := by
  unfold next earlier
  cases gateStep board with
  | some _ => rfl
  | none =>
    cases waitingStep board with
    | some _ => rfl
    | none => cases answeredStep board <;> cases orphanStep board <;> rfl

/-- **What the run does next under a set**: what it does under the empty one, or it asks about the
    same failure, unless the set withdraws a choice. -/
theorem next_unprotected :
    if board.withdraws then Withdrawn board.unprotected.next board.next
    else Alike board.unprotected.next board.next := by
  have hearlier' : board.unprotected.earlier = board.earlier := rfl
  have hreverify : reverifyStep board.unprotected = reverifyStep board := rfl
  have hready : readyBatch board.unprotected = readyBatch board := rfl
  have hfind : (board.unprotected.nodes.find? fun node => (board.unprotected.failureOf node).isSome)
      = board.nodes.find? fun node => (board.failureOf node).isSome := by
    simp only [failureOf_isSome_unprotected]
    rfl
  rw [next_eq, next_eq, hearlier', hreverify, hready, failureStep_eq, failureStep_eq, hfind]
  unfold withdraws failing
  cases board.earlier with
  | some decision => exact .same decision
  | none =>
    cases hfailing : board.nodes.find? fun node => (board.failureOf node).isSome with
    | none => exact .same _
    | some node =>
      have hsome := List.find?_some hfailing
      obtain ⟨decision, hdecision⟩ := Option.isSome_iff_exists.mp hsome
      obtain ⟨decision', hdecision'⟩ :=
        Option.isSome_iff_exists.mp ((board.failureOf_isSome_unprotected node).trans hsome)
      simp only [Option.isSome_none, Bool.false_eq_true, if_false, Option.any_some,
        Option.bind_some, hdecision, hdecision']
      cases hleft : board.leftTo node with
      | some left =>
        simpa using board.failureOf_find (by rw [hleft]; rfl) hdecision hdecision'
      | none =>
        rw [board.failureOf_unprotected hleft, hdecision] at hdecision'
        obtain rfl := Option.some.inj hdecision'
        exact .same _

end Board

namespace Frozen

variable (frozen : Frozen) (state : RunState)

def board : Board := Board.of frozen.workflow state frozen.policy

/-- Whether the run's owed measurement comes before anything else. -/
def measuresFirst : Bool :=
  (owedBaseline state frozen.policy).isSome && !frozen.policy.measuresAside

/-- Whether the set the run protects withdraws the choice a person made about the failure the run
    turns to now. -/
def withdraws : Bool :=
  state.broken.isNone && !frozen.measuresFirst state && (frozen.board state).withdraws

/-- The gate the questions turn to, of those asked here, where the measurement it may wait for is
    not owed. -/
def turnsTo : Option NodeId :=
  match state.broken, (frozen.board state).next with
  | none, .resolveInternalGate id =>
    if (owedBaseline state frozen.policy).isSome && (!frozen.policy.measuresAside ||
        reads frozen.workflow frozen.policy (.resolveInternalGate id)) then none
    else some id
  | _, _ => none

theorem decide_eq_resolveInternalGate (id : NodeId) :
    decide frozen.workflow state frozen.policy = .resolveInternalGate id ↔
      frozen.turnsTo state = some id := by
  unfold decide turnsTo before board
  cases state.broken with
  | some diagnostic => simp
  | none =>
    cases hnext : (Board.of frozen.workflow state frozen.policy).next with
    | resolveInternalGate node =>
      cases owedBaseline state frozen.policy with
      | none => simp
      | some owed =>
        simp only [Option.isSome_some, Bool.true_and]
        split <;> simp
    | _ =>
      cases owedBaseline state frozen.policy with
      | none => simp
      | some owed =>
        simp only
        split <;> simp

/-- Decisions that ask alike still do once the measurement is put before them. -/
theorem asks_before_alike {next next' : Decision} (h : Board.Alike next' next) :
    (before frozen.workflow state frozen.policy next').asks =
      (before frozen.workflow state frozen.policy next).asks := by
  cases h with
  | same => rfl
  | failure node failure attempt outlook outlook' =>
    unfold before
    cases owedBaseline state frozen.policy with
    | none => rfl
    | some owed =>
      show Decision.asks (if !frozen.policy.measuresAside || false then _ else _) =
        Decision.asks (if !frozen.policy.measuresAside || false then _ else _)
      split <;> rfl

/-- A withdrawn choice is asked about again, unless the measurement comes first. -/
theorem asks_before_withdrawn {next next' : Decision} (h : Board.Withdrawn next' next) :
    (before frozen.workflow state frozen.policy next').asks =
        (before frozen.workflow state frozen.policy next).asks ↔
      frozen.measuresFirst state = true := by
  cases h with
  | mk node failure attempt outlook =>
    unfold before measuresFirst
    cases owedBaseline state frozen.policy with
    | none => simp [Decision.asks]
    | some owed =>
      have hasks : (if !frozen.policy.measuresAside ||
            reads frozen.workflow frozen.policy (.execute [(node, attempt)]) then
          Decision.measureBaseline owed else .execute [(node, attempt)]).asks = none := by
        split <;> rfl
      simp only [hasks]
      cases frozen.policy.measuresAside <;> simp [Decision.asks, reads]

/-- **The set decides which node is asked about only by withdrawing a choice.** -/
theorem asks_decide :
    (decide frozen.workflow state frozen.policy.unprotected).asks =
        (decide frozen.workflow state frozen.policy).asks ↔
      frozen.withdraws state = false := by
  unfold decide withdraws
  cases state.broken with
  | some diagnostic => simp
  | none =>
    have hnext := (frozen.board state).next_unprotected
    show (before frozen.workflow state frozen.policy (frozen.board state).unprotected.next).asks =
      (before frozen.workflow state frozen.policy (frozen.board state).next).asks ↔ _
    cases hwithdraws : (frozen.board state).withdraws with
    | true =>
      rw [hwithdraws, if_pos rfl] at hnext
      rw [frozen.asks_before_withdrawn state hnext]
      simp
    | false =>
      rw [hwithdraws] at hnext
      simpa using frozen.asks_before_alike state hnext

/-- Whether the run can ask at `id`: it is a gate answered here, and the run holds each document the
    gate shows. -/
def askable (reader : Reader) (id : NodeId) : Bool :=
  (frozen.gateAt id).any fun gate => gate.shows.all (InternalGate.holds reader state)

/-! ## The readings agree -/

/-- Whether a run waits on a person and what it asks agree, and the set it protects does not decide
    which node is asked about. -/
structure Agrees (reader : Reader) : Prop where
  menu : frozen.awaitsDecision state = (frozen.currentEscalation state reader).map (·.1)
  named : (decide frozen.workflow state frozen.policy.unprotected).asks =
    (decide frozen.workflow state frozen.policy).asks

/-- The node waited on is the one the empty set asks about. -/
theorem awaitsDecision_eq :
    frozen.awaitsDecision state =
      if state.answerAwaitsItsResume then none
      else (decide frozen.workflow state frozen.policy.unprotected).asks := by
  unfold awaitsDecision currentDecision
  cases state.answerAwaitsItsResume with
  | true => rfl
  | false => cases decide frozen.workflow state frozen.policy.unprotected <;> rfl

theorem gateAt_node {id : NodeId} {gate : InternalGate} (h : frozen.gateAt id = some gate) :
    gate.node = id := by
  obtain ⟨node, hfind, hof⟩ := Option.bind_eq_some_iff.mp h
  have hid : node.id = id := by simpa using List.find?_some hfind
  rw [← hid]
  unfold InternalGate.of at hof
  split at hof
  · cases hof
    rfl
  · cases hof

/-- A gate's menu is built where the run can ask at it. -/
theorem currentEscalation_gate (reader : Reader) {id : NodeId}
    (hanswered : state.answerAwaitsItsResume = false)
    (hdecide : decide frozen.workflow state frozen.policy = .resolveInternalGate id) :
    (frozen.currentEscalation state reader).map (·.1) =
      if frozen.askable state reader id then some id else none := by
  unfold currentEscalation currentDecision askable
  simp only [hanswered, hdecide, Bool.false_eq_true, if_false]
  cases hgate : frozen.gateAt id with
  | none => rfl
  | some gate =>
    cases hasked : gate.asked reader state with
    | ok escalation =>
      have hholds := (gate.asked_ok reader state).mp ⟨escalation, hasked⟩
      simp [hholds, frozen.gateAt_node hgate, hasked]
    | error error =>
      have hholds : gate.shows.all (InternalGate.holds reader state) = false := by
        by_contra hall
        obtain ⟨escalation, hok⟩ :=
          (gate.asked_ok reader state).mpr (by simpa using hall)
        rw [hasked] at hok
        cases hok
      simp [hholds, hasked]

/-- Every other menu is built from the decision alone. -/
theorem currentEscalation_other (reader : Reader) (hturns : frozen.turnsTo state = none) :
    (frozen.currentEscalation state reader).map (·.1) =
      if state.answerAwaitsItsResume then none
      else (decide frozen.workflow state frozen.policy).asks := by
  have hnot (id : NodeId) :
      decide frozen.workflow state frozen.policy ≠ .resolveInternalGate id := fun h => by
    rw [decide_eq_resolveInternalGate, hturns] at h
    cases h
  unfold currentEscalation currentDecision
  cases state.answerAwaitsItsResume with
  | true => rfl
  | false =>
    cases hdecide : decide frozen.workflow state frozen.policy with
    | resolveInternalGate id => exact absurd hdecide (hnot id)
    | _ => rfl

/-- **Whether a run waits on a person and what it asks agree** exactly where a gate the run turns to
    is one it can ask at, unless an answer to it waits for its resume, and the set it protects
    withdraws no choice a person made about the failure at hand. -/
theorem awaits_iff (reader : Reader) :
    frozen.Agrees state reader ↔
      (state.answerAwaitsItsResume = true ∨
        ∀ id, frozen.turnsTo state = some id → frozen.askable state reader id = true) ∧
      frozen.withdraws state = false := by
  have hsplit : frozen.Agrees state reader ↔
      frozen.awaitsDecision state = (frozen.currentEscalation state reader).map (·.1) ∧
      frozen.withdraws state = false :=
    ⟨fun h => ⟨h.menu, (frozen.asks_decide state).mp h.named⟩,
      fun h => ⟨h.1, (frozen.asks_decide state).mpr h.2⟩⟩
  rw [hsplit]
  refine and_congr_left fun hwithdraws => ?_
  have hnamed := (frozen.asks_decide state).mpr hwithdraws
  rw [awaitsDecision_eq, hnamed]
  cases hturns : frozen.turnsTo state with
  | none => simp [frozen.currentEscalation_other state reader hturns]
  | some id =>
    have hdecide := (frozen.decide_eq_resolveInternalGate state id).mpr hturns
    have hasks : (decide frozen.workflow state frozen.policy).asks = some id := by rw [hdecide]; rfl
    cases hanswered : state.answerAwaitsItsResume with
    | true =>
      have hnone : frozen.currentEscalation state reader = none := by
        simp [currentEscalation, currentDecision, hanswered]
      simp [hnone]
    | false =>
      rw [frozen.currentEscalation_gate state reader hanswered hdecide, hasks]
      cases haskable : frozen.askable state reader id <;> simp [haskable]

end Frozen

/-- A node that fails. -/
def failingWorkflow : Workflow :=
  ⟨[⟨"fix", .prompt, [], none, none, none, false, .unscoped⟩]⟩

/-- `fix` failed, and its question was recorded: a crash came before the answer was. -/
def halfAnsweredLog : List StoredEvent :=
  [nodeEvent 1 0 "fix" (.started ⟨1, none, none⟩),
    nodeEvent 2 0 "fix" (.failed { failure := .exited 1 }),
    ⟨"", 3, 0, some "fix",
      .known (.gates (.waiting { menu := some (.failure 2 (.exited 1) [] none) }))⟩]

/-- `fix` asked for scope, and a person granted it. -/
def grantedLog : List StoredEvent :=
  [nodeEvent 1 0 "fix" (.started ⟨1, none, none⟩),
    nodeEvent 2 0 "fix" (.failed { failure := .scopeRequested ["ci/*"] "" }),
    ⟨"", 3, 0, some "fix", .known (.gates (.waiting {}))⟩,
    ⟨"", 4, 0, some "fix", .known (.gates (.resolved (.chosen ⟨"grant", "person", none⟩)))⟩]

/-- A run that pauses on its failures, under a set that reaches every glob. -/
def reachedRun : Frozen where
  workflow := failingWorkflow
  policy := { maxParallelNodes := 1, grantsScope := true, reachedBy := fun _ => some .agentConfig }

/-- **The readings do part**: a node that is no gate is waited on and has no menu, and a grant a
    person chose is asked about again under a set that reaches what it would widen. -/
theorem not_awaits :
    (∀ reader : Reader, reachedRun.awaitsDecision (derive halfAnsweredLog) = some "fix" ∧
        reachedRun.currentEscalation (derive halfAnsweredLog) reader = none) ∧
      decide failingWorkflow (derive grantedLog) reachedRun.policy.unprotected =
        .execute [("fix", 2)] ∧
      (decide failingWorkflow (derive grantedLog) reachedRun.policy).asks = some "fix" := by
  refine ⟨fun reader => ⟨by decide +kernel, ?_⟩, by decide +kernel, by decide +kernel⟩
  have hmenu := reachedRun.currentEscalation_gate (derive halfAnsweredLog) reader
    (show _ = false by decide +kernel)
    (show decide failingWorkflow _ reachedRun.policy = .resolveInternalGate "fix" by decide +kernel)
  have hgate : reachedRun.gateAt "fix" = none := by decide +kernel
  simpa [Frozen.askable, hgate] using hmenu

end Yunta
