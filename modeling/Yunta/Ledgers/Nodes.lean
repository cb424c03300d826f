/-
  Every node's lifecycle, folded once: what an attempt is, when a session is open, and which
  failure is the current one.

  1. **Records** — `NodeRecord` is what the log says about one node.  Each event of the node's own
     domain has a method on the record under the source's name (`started`, `finished`, `failed`,
     `rerouted`, `resolved`), and each session event one too.

  2. **The ledger** — `NodeLedger.apply` and `applySession` rewrite the record their envelope
     names, keep the tally of open attempts, and mark the attempts a close moved the tree under.

  3. **What a step can do** — `apply_get` and `applySession_get` say which record a step leaves
     under which node; later modules read those and never unfold the fold again.
-/
import Yunta.Ledgers.Run

set_option linter.unusedVariables false

namespace Yunta

/-! ## States and records -/

/-- What a waiting node waits on. -/
inductive NodeWait where
  | gate (externalRef : Option String)
  | questions (asked : List QuestionId)
  deriving DecidableEq

/-- One node's derived lifecycle state. -/
inductive NodeState where
  | running (attempt : Nat)
  | finished (outcome : NodeOutcome) (tokens : TokenUsage)
  | failed (failure : Failure) (tokens : TokenUsage)
  | waiting (on : NodeWait)
  deriving DecidableEq

namespace NodeState

def isRunning : NodeState → Bool
  | running _ => true
  | _ => false

def isFinished : NodeState → Bool
  | finished .. => true
  | _ => false

def isWaiting : NodeState → Bool
  | waiting _ => true
  | _ => false

def isFailed : NodeState → Bool
  | failed .. => true
  | _ => false

end NodeState

/-- A reroute as `node_rerouted` recorded it, on the node it left. -/
structure Reroute where
  toNode : NodeId
  cause : Failure
  attempt : Option Nat
  max : Option Nat
  origin : RerouteOrigin
  at_ : Int
  seq : Nat
  deriving DecidableEq

/-- The reroute `p` records, placed by its envelope. -/
def Reroute.of (p : NodeReroutedPayload) (m : EventMeta) : Reroute :=
  ⟨p.toNode, p.cause, p.attempt, p.maxReroutes, p.origin, m.at_, m.seq⟩

/-- What a resume finds of the attempt before this one, when it never reached a terminal. -/
inductive OrphanedSession where
  | open_ (session : SessionId)
  | noneRecorded
  deriving DecidableEq

structure OpenSession where
  sessionId : SessionId
  agent : Option String
  model : Option ModelName
  openedAt : Int
  deriving DecidableEq

/-- A failed attempt as the next one remembers it. -/
structure FailedAttempt where
  attempt : Nat
  failure : Failure
  deriving DecidableEq

/-- What the log says about one node. -/
structure NodeRecord where
  /-- The highest attempt number a `node_started` of this node carried. -/
  attempts : Nat := 0
  state : Option NodeState := none
  /-- Where and when the open attempt started; `none` once it closed. -/
  openSince : Option (Nat × Int) := none
  lastStarted : Option Nat := none
  firstStarted : Option Int := none
  leftTree : Option TreeId := none
  failedTree : Option TreeId := none
  /-- Whether another node moved the run's tree while this node's latest attempt ran. -/
  treeMoved : Bool := false
  fromTree : Option TreeId := none
  runScope : Option (List ScopeGlob) := none
  lastTerminal : Option Nat := none
  lastTerminalAt : Option Int := none
  lastFailed : Option Nat := none
  lastFinished : Option Nat := none
  /-- Every failure the node recorded, oldest first. -/
  failures : List Failure := []
  reroutes : Nat := 0
  /-- The reroutes its own `on_failure` made, which its `max_reroutes` counts. -/
  onFailureReroutes : Nat := 0
  lastReroute : Option Reroute := none
  runner : Option RunnerResolvedPayload := none
  firstRunner : Option (Nat × RunnerResolvedPayload) := none
  spend : Spend := {}
  /-- What the open attempt has settled through its rounds of questions. -/
  attemptSettled : TokenUsage := {}
  /-- What the attempts after the first spent, settled. -/
  rework : TokenUsage := {}
  /-- Where the open attempt's current working stretch began. -/
  workingSince : Option Int := none
  active : Nat := 0
  attemptActive : Nat := 0
  sessions : List OpenSession := []
  models : List ModelName := []
  refused : List WriteRefusedPayload := []
  stopsRefused : List StopRefusedPayload := []
  /-- The tool calls the open attempt made, by name and moment. -/
  calls : List (Option String × Int) := []
  lastToolFailure : Option RunToolFailedPayload := none
  lastEventAt : Option Int := none
  /-- Whether the node's session lost its service and has not got it back. -/
  unreachable : Bool := false
  failedBefore : Option FailedAttempt := none
  orphanedSession : Option OrphanedSession := none
  lastSession : Option SessionId := none
  deriving DecidableEq

/-- What the tally counts of a record. -/
structure Standing where
  open_ : Bool
  offline : Bool
  deriving DecidableEq

namespace NodeRecord

instance : Inhabited NodeRecord := ⟨{}⟩

/-- The attempt that just closed, when it failed. -/
def failedAttempt (r : NodeRecord) : Option FailedAttempt :=
  match r.state with
  | some (.failed failure _) => some ⟨r.attempts, failure⟩
  | _ => none

/-- What the tally counts of this record. -/
def standing (r : NodeRecord) : Standing := ⟨r.openSince.isSome, r.unreachable⟩

/-- Ends the open working stretch at `at_`: its awake time counts toward the node's working time
    and toward this attempt's. -/
def closeWorking (r : NodeRecord) (at_ : Int) (asleep : Suspensions) : NodeRecord :=
  match r.workingSince with
  | some since =>
    let stretch := asleep.awakeBetween since at_
    { r with
      workingSince := none
      active := r.active + stretch
      attemptActive := r.attemptActive + stretch }
  | none => r

/-- A `node_started`: the attempt opens, working, with nothing settled or in flight. -/
def started (r : NodeRecord) (p : NodeStartedPayload) (m : EventMeta) : NodeRecord :=
  { r with
    failedBefore := r.failedAttempt
    fromTree := p.fromTree
    runScope := p.runScope
    -- a start while the previous attempt is still open means nothing closed it
    orphanedSession :=
      if r.openSince.isSome then
        some (match r.sessions.getLast? with
          | some session => .open_ session.sessionId
          | none => .noneRecorded)
      else none
    attempts := max r.attempts p.attempt
    state := some (.running p.attempt)
    openSince := some (m.seq, m.at_)
    lastStarted := some m.seq
    firstStarted := r.firstStarted <|> some m.at_
    treeMoved := false
    sessions := []
    calls := []
    lastToolFailure := none
    workingSince := some m.at_
    attemptActive := 0
    attemptSettled := {}
    spend := { r.spend with inFlight := {} } }

/-- Closes the open attempt at a terminal that spent `tokens`. -/
def endAttempt (r : NodeRecord) (tokens : TokenUsage) (m : EventMeta) (asleep : Suspensions) :
    NodeRecord :=
  let r :=
    { r with
      spend := ⟨r.spend.settled + tokens, {}⟩
      rework := if 1 < r.attempts then r.rework + tokens else r.rework
      attemptSettled := {} }
  let r := r.closeWorking m.at_ asleep
  { r with
    openSince := none
    lastTerminal := some m.seq
    lastTerminalAt := some m.at_
    unreachable := false
    sessions := []
    calls := [] }

/-- A `node_finished`: the state it leaves carries everything the attempt spent. -/
def finished (r : NodeRecord) (p : NodeFinishedPayload) (m : EventMeta) (asleep : Suspensions) :
    NodeRecord :=
  { r.endAttempt p.tokensUsed m asleep with
    lastFinished := some m.seq
    leftTree := p.tree
    state := some (.finished p.outcome (r.attemptSettled + p.tokensUsed)) }

/-- A `node_failed`: its failure joins the ones the record keeps. -/
def failed (r : NodeRecord) (p : NodeFailedPayload) (m : EventMeta) (asleep : Suspensions) :
    NodeRecord :=
  { r.endAttempt p.tokensUsed m asleep with
    lastFailed := some m.seq
    failedTree := p.tree
    failures := r.failures ++ [p.failure]
    state := some (.failed p.failure (r.attemptSettled + p.tokensUsed)) }

/-- A `node_rerouted`: one more reroute, and the latest one kept. -/
def rerouted (r : NodeRecord) (p : NodeReroutedPayload) (m : EventMeta) : NodeRecord :=
  { r with
    reroutes := r.reroutes + 1
    onFailureReroutes :=
      if p.origin = .onFailure then r.onFailureReroutes + 1 else r.onFailureReroutes
    lastReroute := some (Reroute.of p m) }

/-- A `runner_resolved`: the runner the node runs on now, and the first it ever resolved. -/
def resolved (r : NodeRecord) (p : RunnerResolvedPayload) (m : EventMeta) : NodeRecord :=
  { r with
    firstRunner := r.firstRunner <|> some (m.seq, p)
    runner := some p }

/-- A round of questions: the usage its session reported moves from in flight to settled. -/
def settleRound (r : NodeRecord) (asked : TokenUsage) : NodeRecord :=
  { r with
    spend := ⟨r.spend.settled + asked, r.spend.inFlight.saturatingSub asked⟩
    attemptSettled := r.attemptSettled + asked
    rework := if 1 < r.attempts then r.rework + asked else r.rework }

/-- The node works again from `at_`, while its attempt is open. -/
def resume (r : NodeRecord) (at_ : Int) : NodeRecord :=
  if r.openSince.isSome then { r with workingSince := r.workingSince <|> some at_ } else r

/-- One of the node's own events. -/
def onEvent (r : NodeRecord) (event : NodeEvent) (m : EventMeta) (asleep : Suspensions) :
    NodeRecord :=
  let r := { r with lastEventAt := some m.at_ }
  match event with
  | .started p => r.started p m
  | .finished p => r.finished p m asleep
  | .failed p => r.failed p m asleep
  | .rerouted p => r.rerouted p m
  | .runnerResolved p => r.resolved p m
  | .hookExecuted | .contextAssembled | .criteriaChecked _ | .scopeChecked
  | .pullRequestOpened => r

/-! ## Sessions -/

/-- A model one of this node's sessions reported, kept once. -/
def ranOn (r : NodeRecord) (model : Option ModelName) : NodeRecord :=
  match model with
  | some model => if model ∈ r.models then r else { r with models := r.models ++ [model] }
  | none => r

/-- A session this node's attempt opened. -/
def opened (r : NodeRecord) (p : AgentSessionOpenedPayload) (at_ : Int) : NodeRecord :=
  ranOn { r with
    lastSession := if p.taskId.isNone then some p.sessionId else r.lastSession
    sessions := r.sessions ++ [⟨p.sessionId, p.agent, p.model, at_⟩] } p.model

/-- The model of the first open session under `id`, when it opened without one. -/
def setModel (id : SessionId) (model : Option ModelName) : List OpenSession → List OpenSession
  | [] => []
  | s :: rest =>
    if s.sessionId = id then
      (if s.model.isNone then { s with model := model } else s) :: rest
    else s :: setModel id model rest

/-- The model the rail heard for an open session that opened without one. -/
def heardModel (r : NodeRecord) (p : RailSummaryPayload) : NodeRecord :=
  match r.sessions.find? fun s => s.sessionId = p.sessionId with
  | some s =>
    if s.model.isNone then
      ranOn { r with sessions := setModel p.sessionId p.model r.sessions } p.model
    else r
  | none => r

/-- What an agent message records: a tool it called, or the usage it reported while an attempt
    is open. -/
def message (r : NodeRecord) (p : AgentMessagePayload) (at_ : Int) : NodeRecord :=
  match p.messageType with
  | .toolUse => { r with calls := r.calls ++ [(p.toolName, at_)] }
  | .usage =>
    if r.openSince.isSome then
      { r with
        spend :=
          { r.spend with
            inFlight := r.spend.inFlight + (
              ⟨p.inputTokens.getD 0, p.outputTokens.getD 0, p.cachedInputTokens⟩ : TokenUsage) } }
    else r
  | .note => r

/-- One session event of the node's. -/
def onSession (r : NodeRecord) (event : SessionEvent) (m : EventMeta) : NodeRecord :=
  let r := { r with lastEventAt := some m.at_ }
  match event with
  | .opened p => r.opened p m.at_
  | .writeRefused p => { r with refused := r.refused ++ [p] }
  | .stopRefused p => { r with stopsRefused := r.stopsRefused ++ [p] }
  | .runToolFailed p => { r with lastToolFailure := some p }
  | .railSummary p => r.heardModel p
  | .serviceUnreachable => { r with unreachable := true }
  | .serviceReachable => { r with unreachable := false }
  | .message p => r.message p m.at_
  | .writeFormatted _ | .railFailed | .runToolRefused | .capabilityDegraded _
  | .bestEffortFailed => r

end NodeRecord

/-! ## The ledger -/

/-- How many records stand each way. -/
structure Tally where
  open_ : Nat := 0
  offline : Nat := 0
  openOffline : Nat := 0
  deriving DecidableEq

namespace Tally

def add (t : Tally) (s : Standing) : Tally :=
  ⟨t.open_ + s.open_.toNat, t.offline + s.offline.toNat,
    t.openOffline + (s.open_ && s.offline).toNat⟩

/-- Takes out a standing this tally counted: never more than it holds. -/
def take (t : Tally) (s : Standing) : Tally :=
  ⟨t.open_ - s.open_.toNat, t.offline - s.offline.toNat,
    t.openOffline - (s.open_ && s.offline).toNat⟩

end Tally

/-- Every node's record, by id, and how many stand each way. -/
structure NodeLedger where
  perNode : OrdMap NodeId NodeRecord := ∅
  tally : Tally := {}
  deriving DecidableEq

namespace NodeLedger

def get (l : NodeLedger) (node : NodeId) : Option NodeRecord := l.perNode[node]?

/-- `node`'s derived state; `none` for a node with none yet. -/
def state (l : NodeLedger) (node : NodeId) : Option NodeState := (l.get node).bind (·.state)

/-- Whether `node` has a derived state: it started, closed, failed or is waiting. -/
def hasState (l : NodeLedger) (node : NodeId) : Bool := (l.state node).isSome

/-- Every record, in node-id order. -/
def values (l : NodeLedger) : List NodeRecord := l.perNode.toList.map (·.2)

/-- Whether some node has an attempt open. -/
def attempting (l : NodeLedger) : Bool := 0 < l.tally.open_

/-- Whether some node lost its service and every open attempt belongs to a node that did. -/
def attemptsOffline (l : NodeLedger) : Bool :=
  0 < l.tally.offline && l.tally.openOffline == l.tally.open_

/-- Moves the counts from what one record was before an event to what it is after it. -/
def track (l : NodeLedger) (before after : Standing) : NodeLedger :=
  { l with tally := (l.tally.add after).take before }

/-- Sets `node`'s state, for the pairs a node's own kinds do not close. -/
def setState (l : NodeLedger) (node : NodeId) (state : Option NodeState) : NodeLedger :=
  { l with perNode := OrdMap.upsert l.perNode node {} fun r => { r with state := state } }

/-- The tree a node's close names. -/
def leftByClose : NodeEvent → Option TreeId
  | .finished p => p.tree
  | .failed p => p.tree
  | _ => none

/-- Whether `beside` ran while the attempt started at `started` did, and did not itself start on
    the tree that attempt left. -/
def overlapped (started : Nat) (left : TreeId) (beside : NodeRecord) : Bool :=
  ((beside.state.any NodeState.isRunning) || beside.lastTerminal.any fun closed => started < closed)
    && beside.fromTree != some left

/-- Marks every attempt that ran beside `writer`'s when `writer` closed leaving the run's tree at
    `left`, different from the tree it started on. -/
def movedBeside (l : NodeLedger) (writer : NodeId) (left : TreeId) : NodeLedger :=
  match l.get writer with
  | none => l
  | some record =>
    match record.fromTree, record.lastStarted with
    | some from_, some started =>
      if from_ = left then l
      else
        { l with
          perNode := l.perNode.map fun id beside =>
            if id ≠ writer ∧ overlapped started left beside then
              { beside with treeMoved := true }
            else beside }
    | _, _ => l

/-- Rewrites the record of `node` by `f` and moves the tally with it: what every event of a node
    does first. -/
def touch (l : NodeLedger) (node : NodeId) (f : NodeRecord → NodeRecord) : NodeLedger :=
  let record := (l.get node).getD {}
  ({ l with perNode := l.perNode.insert node (f record) } : NodeLedger).track record.standing
    (f record).standing

/-- Folds one node-domain event.  An event with no node on its envelope states nothing about any
    node. -/
def apply (l : NodeLedger) (event : NodeEvent) (m : EventMeta) (asleep : Suspensions) :
    NodeLedger :=
  match m.node with
  | none => l
  | some node =>
    let l := l.touch node fun r => r.onEvent event m asleep
    match leftByClose event with
    | some left => l.movedBeside node left
    | none => l

/-- Folds a session-domain event onto the node that wrote it; one with no node is refused. -/
def applySession (l : NodeLedger) (event : SessionEvent) (m : EventMeta) :
    NodeLedger × Except Unit Unit :=
  match m.node with
  | none => (l, .error ())
  | some node => (l.touch node fun r => r.onSession event m, .ok ())

/-- The node stops working: a person is being asked. -/
def stopWorking (l : NodeLedger) (node : NodeId) (m : EventMeta) (asleep : Suspensions) :
    NodeLedger :=
  match l.get node with
  | none => l
  | some r => { l with perNode := l.perNode.insert node (r.closeWorking m.at_ asleep) }

/-- A round of questions closes: the usage its session reported moves from in flight to settled,
    and the node stops working while a person answers. -/
def settleAsking (l : NodeLedger) (node : NodeId) (asked : TokenUsage) (m : EventMeta)
    (asleep : Suspensions) : NodeLedger :=
  ({ l with perNode := OrdMap.upsert l.perNode node {} fun r => r.settleRound asked } :
    NodeLedger).stopWorking node m asleep

/-- The answer or the resolution lands and the node works again from `at_`. -/
def resumeWorking (l : NodeLedger) (node : NodeId) (at_ : Int) : NodeLedger :=
  match l.get node with
  | none => l
  | some r => { l with perNode := l.perNode.insert node (r.resume at_) }

/-- The newest tree the log records the run at, and where: every node's latest start, and the
    latest finish and failure of each node `countsClose` lets through. -/
def treeRecords (l : NodeLedger) (countsClose : NodeId → Bool) : List (Nat × TreeId) :=
  l.perNode.toList.flatMap fun (id, record) =>
    let zip : Option Nat → Option TreeId → List (Nat × TreeId)
      | some seq, some tree => [(seq, tree)]
      | _, _ => []
    zip record.lastStarted record.fromTree ++
      (if countsClose id then
        zip record.lastFinished record.leftTree ++ zip record.lastFailed record.failedTree
      else [])

end NodeLedger

/-! ## What a step does to a record -/

namespace NodeRecord

@[simp] theorem closeWorking_state (r : NodeRecord) (at_ : Int) (asleep : Suspensions) :
    (r.closeWorking at_ asleep).state = r.state := by
  unfold closeWorking; split <;> rfl

@[simp] theorem ranOn_state (r : NodeRecord) (model : Option ModelName) :
    (r.ranOn model).state = r.state := by
  unfold ranOn; split <;> [split; skip] <;> rfl

@[simp] theorem heardModel_state (r : NodeRecord) (p : RailSummaryPayload) :
    (r.heardModel p).state = r.state := by
  unfold heardModel; split <;> [split; skip] <;> simp

@[simp] theorem message_state (r : NodeRecord) (p : AgentMessagePayload) (at_ : Int) :
    (r.message p at_).state = r.state := by
  unfold message
  cases p.messageType with
  | usage => dsimp only; split <;> rfl
  | _ => rfl

@[simp] theorem settleRound_state (r : NodeRecord) (asked : TokenUsage) :
    (r.settleRound asked).state = r.state := rfl

@[simp] theorem resume_state (r : NodeRecord) (at_ : Int) : (r.resume at_).state = r.state := by
  unfold resume; split <;> rfl

/-- A node's own event moves its state when it opens or closes an attempt, and only then. -/
theorem onEvent_state (r : NodeRecord) (event : NodeEvent) (m : EventMeta)
    (asleep : Suspensions) :
    (r.onEvent event m asleep).state =
      match event with
      | .started p => some (.running p.attempt)
      | .finished p => some (.finished p.outcome (r.attemptSettled + p.tokensUsed))
      | .failed p => some (.failed p.failure (r.attemptSettled + p.tokensUsed))
      | _ => r.state := by
  cases event <;> rfl

/-- A session moves no state. -/
theorem onSession_state (r : NodeRecord) (event : SessionEvent) (m : EventMeta) :
    (r.onSession event m).state = r.state := by
  cases event <;> simp [onSession, opened]

end NodeRecord

/-! ## What a step can do -/

namespace NodeLedger

section
variable (l : NodeLedger) (node a : NodeId)

theorem get_touch (f : NodeRecord → NodeRecord) :
    (l.touch node f).get a = if node = a then some (f ((l.get node).getD {})) else l.get a := by
  change (l.perNode.insert node _)[a]? = _
  exact OrdMap.getElem?_insert_eq ..

theorem get_setState (state : Option NodeState) :
    (l.setState node state).get a =
      if node = a then some { (l.get node).getD {} with state := state } else l.get a := by
  change (OrdMap.upsert l.perNode node {} _)[a]? = _
  exact OrdMap.getElem?_upsert ..

theorem state_setState (state : Option NodeState) :
    (l.setState node state).state a = if node = a then state else l.state a := by
  unfold NodeLedger.state
  rw [get_setState]
  split <;> rfl

/-- A close that moved the tree marks other attempts, and changes nothing else of any record. -/
theorem get_movedBeside (left : TreeId) :
    (l.movedBeside node left).get a = l.get a ∨
      a ≠ node ∧ ∃ r, l.get a = some r ∧
        (l.movedBeside node left).get a = some { r with treeMoved := true } := by
  unfold movedBeside
  split
  · exact Or.inl rfl
  split
  · split
    · exact Or.inl rfl
    next started _ _ _ =>
    have hmap := fun g : NodeId → NodeRecord → NodeRecord =>
      Std.ExtTreeMap.getElem?_map (t := l.perNode) (f := g) (k := a)
    simp only [NodeLedger.get, hmap]
    cases hr : l.perNode[a]? with
    | none => exact Or.inl rfl
    | some r =>
      by_cases hc : a ≠ node ∧ overlapped started left r
      · exact Or.inr ⟨hc.1, r, rfl, by simp only [Option.map_some, if_pos hc]⟩
      · exact Or.inl (by simp only [Option.map_some, if_neg hc])
  · exact Or.inl rfl

/-- What rewriting a record that exists leaves, and an absent one's absence. -/
theorem get_rewrite (f : NodeRecord → NodeRecord) :
    (match l.get node with
      | none => l
      | some r => { l with perNode := l.perNode.insert node (f r) } : NodeLedger).get a =
      if node = a then (l.get node).map f else l.get a := by
  cases hr : l.get node with
  | none =>
    by_cases he : node = a
    · rw [if_pos he, ← he]; exact hr
    · rw [if_neg he]
  | some r => exact OrdMap.getElem?_insert_eq ..

theorem get_stopWorking (m : EventMeta) (asleep : Suspensions) :
    (l.stopWorking node m asleep).get a =
      if node = a then (l.get node).map fun r => r.closeWorking m.at_ asleep else l.get a :=
  l.get_rewrite node a _

theorem get_resumeWorking (at_ : Int) :
    (l.resumeWorking node at_).get a =
      if node = a then (l.get node).map fun r => r.resume at_ else l.get a :=
  l.get_rewrite node a _

/-- A round of questions settles what its session reported and stops the node's work. -/
theorem get_settleAsking (asked : TokenUsage) (m : EventMeta) (asleep : Suspensions) :
    (l.settleAsking node asked m asleep).get a =
      if node = a then
        some ((((l.get node).getD {}).settleRound asked).closeWorking m.at_ asleep)
      else l.get a := by
  have hget : ∀ b, ({ l with
      perNode := OrdMap.upsert l.perNode node {} fun r => r.settleRound asked } :
        NodeLedger).get b =
      if node = b then some (((l.get node).getD {}).settleRound asked) else l.get b :=
    fun b => OrdMap.getElem?_upsert ..
  unfold settleAsking
  rw [get_stopWorking, hget, hget, if_pos rfl]
  split <;> rfl

/-- **A node's own event** rewrites the record of the node its envelope names, and marks at most
    the records beside it. -/
theorem apply_get {event : NodeEvent} {m : EventMeta} (hm : m.node = some node)
    (asleep : Suspensions) :
    (l.apply event m asleep).get node = some (((l.get node).getD {}).onEvent event m asleep) := by
  unfold apply
  rw [hm]
  have htouch : (l.touch node fun r => r.onEvent event m asleep).get node =
      some (((l.get node).getD {}).onEvent event m asleep) := by
    rw [get_touch, if_pos rfl]
  cases leftByClose event with
  | none => exact htouch
  | some left =>
    rcases (l.touch node fun r => r.onEvent event m asleep).get_movedBeside node node left with
      h | ⟨hne, -⟩
    · exact h.trans htouch
    · exact absurd rfl hne

theorem apply_get_other (event : NodeEvent) {m : EventMeta} (hm : m.node ≠ some a)
    (asleep : Suspensions) :
    (l.apply event m asleep).get a = l.get a ∨
      ∃ r, l.get a = some r ∧
        (l.apply event m asleep).get a = some { r with treeMoved := true } := by
  unfold apply
  cases hnode : m.node with
  | none => exact Or.inl rfl
  | some writer =>
    have hne : writer ≠ a := fun he => hm (by rw [hnode, he])
    have htouch : (l.touch writer fun r => r.onEvent event m asleep).get a = l.get a := by
      rw [get_touch, if_neg hne]
    cases leftByClose event with
    | none => exact Or.inl htouch
    | some left =>
      rcases (l.touch writer fun r => r.onEvent event m asleep).get_movedBeside writer a left with
        h | ⟨-, r, hr, h⟩
      · exact Or.inl (h.trans htouch)
      · exact Or.inr ⟨r, htouch ▸ hr, h⟩

/-- **A session event** rewrites the record of the node its envelope names. -/
theorem applySession_get {event : SessionEvent} {m : EventMeta} :
    (l.applySession event m).1.get a =
      if m.node = some a then some (((l.get a).getD {}).onSession event m) else l.get a := by
  unfold applySession
  cases hnode : m.node with
  | none => simp
  | some writer =>
    simp only [Option.some.injEq]
    rw [get_touch]
    split
    · next he => rw [he]
    · rfl

/-! ### What a step does to a state -/

theorem state_stopWorking (m : EventMeta) (asleep : Suspensions) :
    (l.stopWorking node m asleep).state a = l.state a := by
  unfold NodeLedger.state
  rw [get_stopWorking]
  split
  · next he => rw [← he]; cases l.get node <;> simp
  · rfl

theorem state_settleAsking (asked : TokenUsage) (m : EventMeta) (asleep : Suspensions) :
    (l.settleAsking node asked m asleep).state a = l.state a := by
  unfold NodeLedger.state
  rw [get_settleAsking]
  split
  · next he => rw [← he]; cases l.get node <;> simp
  · rfl

theorem state_resumeWorking (at_ : Int) : (l.resumeWorking node at_).state a = l.state a := by
  unfold NodeLedger.state
  rw [get_resumeWorking]
  split
  · next he => rw [← he]; cases l.get node <;> simp
  · rfl

theorem state_applySession (event : SessionEvent) (m : EventMeta) :
    (l.applySession event m).1.state a = l.state a := by
  unfold NodeLedger.state
  rw [applySession_get]
  split
  · cases l.get a <;> simp [NodeRecord.onSession_state]
  · rfl

/-- **What a node event leaves of every node's state**: a start, a finish and a failure move the
    state of the node they name. -/
theorem state_apply (event : NodeEvent) (m : EventMeta) (asleep : Suspensions) :
    (l.apply event m asleep).state a =
      if m.node = some a then
        (((l.get a).getD {}).onEvent event m asleep).state
      else l.state a := by
  unfold NodeLedger.state
  split
  · next hm => rw [l.apply_get a hm]; rfl
  · next hm =>
    rcases l.apply_get_other a event hm asleep with h | ⟨r, hr, h⟩
    · rw [h]
    · rw [h, hr]; rfl

end

end NodeLedger

/-- `max_by_key(|(seq, _)| *seq)`: the last of the entries with the greatest seq. -/
def maxBySeq {α : Type} : List (Nat × α) → Option (Nat × α)
  | [] => none
  | x :: rest =>
    match maxBySeq rest with
    | none => some x
    | some best => if best.1 < x.1 then some x else some best

def NodeLedger.latestTree (l : NodeLedger) (countsClose : NodeId → Bool) :
    Option (Nat × TreeId) :=
  maxBySeq (l.treeRecords countsClose)

end Yunta
