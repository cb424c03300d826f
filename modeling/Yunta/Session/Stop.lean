/-
  Whether a session may end its turn.

  1. **Judgements** — a stop is judged as the close will judge the work, and held only when the
     close would not take the work and would not settle it on its own (`holdsAStop`).

  2. **The machine** — one session's stops, one after the other, in the steps the engine takes them
     in: judged, held unless its token fired, looked up among the refusals the log holds, logged.
     Between any two steps the work changes, the token fires, and the run appends what it likes.

  3. **Main result** — `refused_once`: where redaction leaves the session's id as it is, replay takes
     the log whole, and the token does not fire behind the check that read it, no two stops are
     refused for one work and one answer, a stop whose refusal was not logged or whose token fired is
     let through, and a refusal is on the log when the session hears it.

  The log keeps a refusal under the redacted id, and the check looks the bare one up: a session
  whose id holds a secret's value is refused again for the same work.  And the token is read once,
  before the log is: one that fires later finds the session sent back (`refused_twice`).
-/
import Yunta.Criteria.PostCheck
import Yunta.Lib.Machine
import Yunta.Replay.Refusal
import Yunta.Scope.Expansion
import Yunta.Session.Redactor
import Yunta.Tasks.Recording

set_option linter.unusedVariables false

namespace Yunta

/-! ## The refusals a log holds -/

namespace NodeRecord

/-- The stop an event sends back. -/
def sentBack : SessionEvent → List StopRefusedPayload
  | .stopRefused p => [p]
  | _ => []

@[simp] theorem closeWorking_stopsRefused (r : NodeRecord) (at_ : Int) (asleep : Suspensions) :
    (r.closeWorking at_ asleep).stopsRefused = r.stopsRefused := by
  unfold closeWorking; split <;> rfl

@[simp] theorem endAttempt_stopsRefused (r : NodeRecord) (tokens : TokenUsage) (m : EventMeta)
    (asleep : Suspensions) : (r.endAttempt tokens m asleep).stopsRefused = r.stopsRefused := by
  simp [endAttempt]

@[simp] theorem ranOn_stopsRefused (r : NodeRecord) (model : Option ModelName) :
    (r.ranOn model).stopsRefused = r.stopsRefused := by
  unfold ranOn; split <;> [split; skip] <;> rfl

@[simp] theorem heardModel_stopsRefused (r : NodeRecord) (p : RailSummaryPayload) :
    (r.heardModel p).stopsRefused = r.stopsRefused := by
  unfold heardModel; split <;> [split; skip] <;> simp

@[simp] theorem message_stopsRefused (r : NodeRecord) (p : AgentMessagePayload) (at_ : Int) :
    (r.message p at_).stopsRefused = r.stopsRefused := by
  unfold message
  cases p.messageType with
  | usage => dsimp only; split <;> rfl
  | _ => rfl

@[simp] theorem resume_stopsRefused (r : NodeRecord) (at_ : Int) :
    (r.resume at_).stopsRefused = r.stopsRefused := by
  unfold resume; split <;> rfl

/-- No event of the node's own takes a refusal back. -/
theorem onEvent_stopsRefused (r : NodeRecord) (event : NodeEvent) (m : EventMeta)
    (asleep : Suspensions) : (r.onEvent event m asleep).stopsRefused = r.stopsRefused := by
  cases event <;> simp [onEvent, started, finished, failed, rerouted, resolved]

theorem onSession_stopsRefused (r : NodeRecord) (event : SessionEvent) (m : EventMeta) :
    (r.onSession event m).stopsRefused = r.stopsRefused ++ sentBack event := by
  cases event <;> simp [onSession, opened, sentBack]

end NodeRecord

namespace NodeLedger

/-- The stops a node's sessions were sent back from. -/
def stopsRefused (l : NodeLedger) (node : NodeId) : List StopRefusedPayload :=
  ((l.get node).map (·.stopsRefused)).getD []

/-- Whether `session` of `node` was already sent back from a stop with its work at `state`. -/
def stopRefusedOn (l : NodeLedger) (node : NodeId) (session : SessionId) (state : ContentHash) :
    Bool :=
  (l.get node).any fun record =>
    record.stopsRefused.any fun stop => stop.sessionId = session && stop.state = state

theorem stopRefusedOn_iff {l : NodeLedger} {node : NodeId} {session : SessionId}
    {state : ContentHash} :
    l.stopRefusedOn node session state = true ↔ ⟨session, state⟩ ∈ l.stopsRefused node := by
  unfold stopRefusedOn stopsRefused
  cases l.get node with
  | none => simp
  | some record =>
    simp only [Option.any_some, List.any_eq_true, Bool.and_eq_true, decide_eq_true_eq,
      Option.map_some, Option.getD_some]
    constructor
    · rintro ⟨⟨session', state'⟩, hmem, rfl, rfl⟩
      exact hmem
    · exact fun hmem => ⟨_, hmem, rfl, rfl⟩

section
variable (l : NodeLedger) (node a : NodeId)

theorem stopsRefused_setState (state : Option NodeState) :
    (l.setState node state).stopsRefused a = l.stopsRefused a := by
  unfold stopsRefused
  rw [get_setState]
  split
  · next he => rw [← he]; cases l.get node <;> rfl
  · rfl

theorem stopsRefused_stopWorking (m : EventMeta) (asleep : Suspensions) :
    (l.stopWorking node m asleep).stopsRefused a = l.stopsRefused a := by
  unfold stopsRefused
  rw [get_stopWorking]
  split
  · next he => rw [← he]; cases l.get node <;> simp
  · rfl

theorem stopsRefused_settleAsking (asked : TokenUsage) (m : EventMeta) (asleep : Suspensions) :
    (l.settleAsking node asked m asleep).stopsRefused a = l.stopsRefused a := by
  unfold stopsRefused
  rw [get_settleAsking]
  split
  · next he => rw [← he]; cases l.get node <;> simp [NodeRecord.settleRound]
  · rfl

theorem stopsRefused_resumeWorking (at_ : Int) :
    (l.resumeWorking node at_).stopsRefused a = l.stopsRefused a := by
  unfold stopsRefused
  rw [get_resumeWorking]
  split
  · next he => rw [← he]; cases l.get node <;> simp
  · rfl

theorem stopsRefused_apply (event : NodeEvent) (m : EventMeta) (asleep : Suspensions) :
    (l.apply event m asleep).stopsRefused a = l.stopsRefused a := by
  unfold stopsRefused
  by_cases hm : m.node = some a
  · rw [l.apply_get a hm]
    cases l.get a <;> simp [NodeRecord.onEvent_stopsRefused]
  · rcases l.apply_get_other a event hm asleep with h | ⟨r, hr, h⟩
    · rw [h]
    · rw [h, hr]; rfl

theorem stopsRefused_applySession (event : SessionEvent) (m : EventMeta) :
    (l.applySession event m).1.stopsRefused a =
      l.stopsRefused a ++ if m.node = some a then NodeRecord.sentBack event else [] := by
  unfold stopsRefused
  rw [applySession_get]
  split
  · cases l.get a <;> simp [NodeRecord.onSession_stopsRefused]
  · simp

end

end NodeLedger

namespace RunState

/-- What an event sends back of the stops of `node`'s sessions. -/
def sentBackBy (node : NodeId) (event : StoredEvent) : List StopRefusedPayload :=
  match event.payload with
  | some (.session e) => if event.nodeId = some node then NodeRecord.sentBack e else []
  | _ => []

theorem gateTransition_stopsRefused (s : RunState) (e : GateEvent) (event : StoredEvent)
    (a : NodeId) :
    (s.gateTransition e event).1.nodes.stopsRefused a = s.nodes.stopsRefused a := by
  unfold gateTransition
  cases event.nodeId with
  | none => rfl
  | some node =>
    cases e with
    | waiting p =>
      simp [park, NodeLedger.stopsRefused_stopWorking, NodeLedger.stopsRefused_setState]
    | resolved p =>
      show (if s.isWaiting node then s.unpark node event.timestamp else s).nodes.stopsRefused a = _
      split
      · simp [unpark, NodeLedger.stopsRefused_resumeWorking, NodeLedger.stopsRefused_setState]
      · rfl
    | questionsAsked round =>
      cases hq : round.questions <;>
        simp [questionsAsked, hq, park, NodeLedger.stopsRefused_settleAsking,
          NodeLedger.stopsRefused_setState]
    | questionsAnswered p =>
      simp [unpark, NodeLedger.stopsRefused_resumeWorking, NodeLedger.stopsRefused_setState]
    | askingOpened => simp [NodeLedger.stopsRefused_stopWorking]

/-- **Every event a state takes keeps the refusals** it holds, and adds the one it is. -/
theorem taken_stopsRefused {s : RunState} {event : StoredEvent} (h : s.refuse event = .ok ())
    (a : NodeId) :
    (s.taken event).nodes.stopsRefused a = s.nodes.stopsRefused a ++ sentBackBy a event := by
  unfold sentBackBy
  cases hp : event.payload with
  | none => rw [taken_unknown hp]; simp [counted]
  | some payload =>
    cases payload with
    | run e => rw [taken_run hp]; simp [counted]
    | node e =>
      rw [taken_node hp]
      simpa [counted] using s.nodes.stopsRefused_apply a e event.meta_ s.run.suspensions
    | session e =>
      rw [taken_session h hp]
      exact s.nodes.stopsRefused_applySession a e event.meta_
    | tasks e => rw [taken_task h hp]; simp [counted]
    | scope e => rw [taken_scope h hp]; simp [counted]
    | findings e => rw [taken_finding hp]; simp [counted]
    | artifacts e => rw [taken_artifact hp]; simp [counted]
    | gates e =>
      rw [taken_gate h hp]
      simpa [counted] using s.gateTransition_stopsRefused e event a
    | children e => rw [taken_child hp]; simp [counted]

/-- **The refusals a run's state holds** are those of its log, where replay takes it whole. -/
theorem derive_stopsRefused {log : List StoredEvent} (h : Accepted log) (node : NodeId) :
    (derive log).nodes.stopsRefused node = log.flatMap (sentBackBy node) := by
  induction log using List.reverseRecOn with
  | nil => rfl
  | append_singleton log event ih =>
    obtain ⟨hrefuse, hderive⟩ := derive_snoc h
    rw [hderive, taken_stopsRefused hrefuse, ih (accepted_of_append h), List.flatMap_append]
    simp

end RunState

namespace Stop

open Expansion (Decision)
open Machine

/-! ## Judgements -/

/-- Why a document a session owes is refused by its close. -/
inductive ArtifactFailure where
  | undelivered (text : String)
  | missing (text : String)
  | refused (text : String)
  deriving DecidableEq

/-- A document a node's session owes its close, that the close would refuse. -/
structure DocumentFault where
  spec : String
  failure : ArtifactFailure
  deriving DecidableEq

/-- The refusal a stop states for a document. -/
def DocumentFault.refusal (fault : DocumentFault) : StopRefusal :=
  match fault.failure with
  | .undelivered _ | .missing _ => .artifactMissing
  | .refused _ => .artifactRefused

/-- The work a session left: the tree of its checkout, and what its close would refuse of the
    documents it owes. -/
structure Work where
  tree : TreeId
  documents : List DocumentFault
  deriving DecidableEq

/-- What a judgement reads beside the work: what the criteria answered, what lies outside the scope,
    the decision on the session's request, and the criterion it declared impossible. -/
structure Reads where
  criteria : List Criteria.CriterionRun := []
  waiting : List String := []
  violations : List PathBuf := []
  request : Option Decision := none
  unpassable : Option CriterionUnpassablePayload := none
  deriving DecidableEq

structure Judgement where
  criteria : List Criteria.CriterionRun
  waiting : List String
  violations : List PathBuf
  request : Option Decision
  documents : List DocumentFault
  unpassable : Option CriterionUnpassablePayload
  tree : Option TreeId
  deriving DecidableEq

/-- Whose session it is: a task's, or a node's own, which may declare no scope. -/
inductive Whose where
  | task (id : TaskId)
  | node
  | unscoped
  deriving DecidableEq

/-- `judge_session`: the work judged as its close judges it. -/
def judge (whose : Whose) (work : Work) (reads : Reads) : Judgement :=
  match whose with
  | .task _ =>
    ⟨reads.criteria, reads.waiting, reads.violations, reads.request, [], reads.unpassable,
      some work.tree⟩
  | .node => ⟨[], [], reads.violations, none, work.documents, none, some work.tree⟩
  | .unscoped =>
    ⟨[], [], [], none, work.documents, none, if work.documents = [] then none else some work.tree⟩

namespace Judgement

/-- Whether the work closes its task or node. -/
def closes (j : Judgement) : Bool :=
  (j.criteria.all fun run => run.exitCode = 0) && j.waiting.isEmpty && j.violations.isEmpty &&
    j.documents.isEmpty

/-- Whether a criterion could not run at all. -/
def unrunnable (j : Judgement) : Bool :=
  j.criteria.any fun run => (Criteria.Unanswered.of run.exitCode).isSome

/-- Whether a grant or an escalation settles the request. -/
def settles (j : Judgement) : Bool :=
  match j.request with
  | some (.grant ..) | some (.escalate ..) => true
  | _ => false

/-- **Whether a session's stop is held**: the work does not close and the close does not settle
    it. -/
def holdsAStop (j : Judgement) : Bool :=
  !j.closes && !j.unrunnable && !j.settles && j.unpassable.isNone

/-- What the digest of a judgement is taken of. -/
abbrev Digested :=
  Option TreeId × Option Decision × Option CriterionUnpassablePayload × List DocumentFault

def digested (j : Judgement) : Digested := (j.tree, j.request, j.unpassable, j.documents)

end Judgement

/-- What keeps the judged work from closing, each reason once. -/
def stopReasons (j : Judgement) : List StopRefusal :=
  let why := if !j.waiting.isEmpty || j.criteria.any (fun run => run.exitCode ≠ 0) then
    [.criteriaRed] else []
  let why := j.documents.foldl (fun why fault =>
    if fault.refusal ∈ why then why else why ++ [fault.refusal]) why
  if j.violations.isEmpty then why else why ++ [.outsideScope]

/-! ## The machine -/

/-- A stop being answered: the work as it was judged, and the judgement. -/
structure Stopping where
  work : Work
  judgement : Judgement

/-- How far the session's stop is. -/
inductive Phase where
  | working
  | judged (stop : Stopping)
  /-- The token had not fired when it was read, and the close would not take the work. -/
  | held (stop : Stopping)
  /-- The log holds no refusal of it. -/
  | unseen (stop : Stopping)

/-- A stop answered: the work and the decision it was judged on, whether its token had fired by then,
    whether its refusal was logged, how long the log was, and whether the session was sent back. -/
structure Answered where
  work : Work
  decision : Option Decision
  fired : Bool
  logged : Bool
  logLength : Nat
  refused : Bool

structure Live where
  log : List StoredEvent
  work : Work
  /-- Whether the session's stop token fired. -/
  token : Bool := false
  phase : Phase := .working
  answered : List Answered := []

/-- How judging the work went. -/
inductive Judged where
  | ok (reads : Reads)
  | cancelled
  | failed

inductive Act where
  /-- The session's work changes. -/
  | change (work : Work)
  /-- Any other event of the run. -/
  | event (event : StoredEvent)
  /-- The token fires: the session is being cut. -/
  | cancel
  /-- The session asks to stop. -/
  | ask (judged : Judged)
  /-- The token is read, for the one time. -/
  | check
  /-- The log is read, where it can be. -/
  | reread (readable : Bool)
  /-- The refusal is logged, where the append goes through. -/
  | append (ok : Bool)

section
variable (redactor : Redactor) (runLog : RunLog) (node : NodeId) (session : SessionId)
  (whose : Whose) (sha256 : Judgement.Digested → ContentHash)

/-- The task a loop's session works. -/
def Whose.taskId : Whose → Option TaskId
  | .task id => some id
  | _ => none

/-- The refusal of a stop. -/
def refusal (j : Judgement) : StopRefused :=
  ⟨session, sha256 j.digested, stopReasons j, whose.taskId⟩

/-- What the log keeps of a refusal. -/
def kept (p : StopRefused) : EventPayload := .session (.stopRefused ⟨p.sessionId, p.state⟩)

/-- The stop is over, and the session let stop. -/
def Live.proceed (live : Live) (stop : Stopping) : Live :=
  { live with
    phase := .working
    answered := live.answered ++
      [⟨stop.work, stop.judgement.request, live.token, false, live.log.length, false⟩] }

/-- `before_stop`, step by step. -/
def step (live : Live) : Act → Option Live
  | .change work => some { live with work := work }
  | .event event => some { live with log := live.log ++ [event] }
  | .cancel => some { live with token := true }
  | .ask judged =>
    match live.phase, judged with
    | .working, .ok reads =>
      some { live with phase := .judged ⟨live.work, judge whose live.work reads⟩ }
    -- A stop the engine could not judge is let through.
    | .working, _ => some live
    | _, _ => none
  | .check =>
    match live.phase with
    | .judged stop =>
      if live.token || !stop.judgement.holdsAStop then some (live.proceed stop)
      else some { live with phase := .held stop }
    | _ => none
  | .reread readable =>
    match live.phase with
    | .held stop =>
      if !readable then some (live.proceed stop)
      else if (derive live.log).nodes.stopRefusedOn node session
          (sha256 stop.judgement.digested) then
        some (live.proceed stop)
      else some { live with phase := .unseen stop }
    | _ => none
  | .append ok =>
    match live.phase with
    | .unseen stop =>
      match if ok then redactor.payload (refusal session whose sha256 stop.judgement) else none with
      | some payload =>
        let log := runLog.record live.log (some node) (kept payload)
        some { live with
          log := log
          phase := .working
          answered := live.answered ++
            [⟨stop.work, stop.judgement.request, live.token, true, log.length, true⟩] }
      -- A refusal the log does not hold could be repeated forever.
      | none => some (live.proceed stop)
    | _ => none

/-- A session at the start of its turn, in a run of any log. -/
def turn (log : List StoredEvent) (work : Work) : Live := { log := log, work := work }

/-- Whether the token was read for a stop still to be answered. -/
def Phase.held? : Phase → Bool
  | .held _ | .unseen _ => true
  | .working | .judged _ => false

/-- **What the engine needs** to know its own refusals, and that the session is cut: redaction leaves
    the session's id as it is, replay takes the log whole, and the token does not fire between its
    reading and the answer. -/
def Recalls (live : Live) : Act → Prop
  | .reread _ => redactor.text session = session ∧ Accepted live.log
  | .cancel => live.phase.held? = false
  | _ => True

instance (live : Live) (act : Act) : Decidable (Recalls redactor session live act) := by
  cases act <;> unfold Recalls <;> infer_instance

/-! ## What a run of stops keeps -/

/-- What is known of the stops answered and of the one being answered.

    - A refused stop was held on the work it names, and the log held its refusal when it was heard.
    - One not logged, or whose token fired, is not refused, and the token of one held has not.
    - No refused stop was judged on the state of the one the log holds no refusal of. -/
structure Known (live : Live) : Prop where
  once : (live.answered.filter (·.refused)).Pairwise fun a b =>
    ¬ (a.work = b.work ∧ a.decision = b.decision)
  letThrough : ∀ stop ∈ live.answered, stop.fired = true ∨ stop.logged = false →
    stop.refused = false
  held : ∀ stop ∈ live.answered, stop.refused = true → ∃ reads,
    (judge whose stop.work reads).holdsAStop = true ∧
      (judge whose stop.work reads).request = stop.decision ∧
      ∃ event ∈ live.log.take stop.logLength, event.nodeId = some node ∧
        event.payload = some (.session (.stopRefused
          ⟨session, sha256 (judge whose stop.work reads).digested⟩))
  judged : ∀ stop, live.phase = .judged stop ∨ live.phase = .held stop ∨
    live.phase = .unseen stop → ∃ reads, stop.judgement = judge whose stop.work reads
  holding : ∀ stop, live.phase = .held stop ∨ live.phase = .unseen stop →
    live.token = false ∧ stop.judgement.holdsAStop = true
  unseen : ∀ stop, live.phase = .unseen stop → redactor.text session = session ∧
    ∀ other ∈ live.answered, other.refused = true →
      ¬ (other.work = stop.work ∧ other.decision = stop.judgement.request)

theorem unpassable_of_holds {j : Judgement} (h : j.holdsAStop = true) : j.unpassable = none := by
  simp only [Judgement.holdsAStop, Bool.and_eq_true, Option.isNone_iff_eq_none] at h
  exact h.2

/-- **Held stops on one work with one decision** are of one state. -/
theorem digested_eq {work : Work} {reads reads' : Reads}
    (h : (judge whose work reads).holdsAStop = true)
    (h' : (judge whose work reads').holdsAStop = true)
    (hrequest : (judge whose work reads).request = (judge whose work reads').request) :
    (judge whose work reads).digested = (judge whose work reads').digested := by
  have hunpassable := (unpassable_of_holds h).trans (unpassable_of_holds h').symm
  have htree : (judge whose work reads).tree = (judge whose work reads').tree := by
    cases whose <;> rfl
  have hdocuments : (judge whose work reads).documents = (judge whose work reads').documents := by
    cases whose <;> rfl
  simp only [Judgement.digested, htree, hrequest, hunpassable, hdocuments]

variable {redactor runLog node session whose sha256}

/-- A refusal on an accepted log is one its state holds. -/
theorem stopRefusedOn_of_mem {log : List StoredEvent} (h : Accepted log) {event : StoredEvent}
    {state : ContentHash} (hmem : event ∈ log) (hnode : event.nodeId = some node)
    (hpayload : event.payload = some (.session (.stopRefused ⟨session, state⟩))) :
    (derive log).nodes.stopRefusedOn node session state = true := by
  rw [NodeLedger.stopRefusedOn_iff, RunState.derive_stopsRefused h]
  refine List.mem_flatMap.mpr ⟨event, hmem, ?_⟩
  simp [RunState.sentBackBy, hpayload, hnode, NodeRecord.sentBack]

theorem mem_take_append {log more : List StoredEvent} {n : Nat} {event : StoredEvent}
    (h : event ∈ log.take n) : event ∈ (log ++ more).take n := by
  rw [List.take_append]
  exact List.mem_append_left _ h

/-- What is known stays known of a longer log. -/
theorem Known.longer {live : Live} (h : Known redactor node session whose sha256 live)
    (more : List StoredEvent) :
    Known redactor node session whose sha256 { live with log := live.log ++ more } where
  once := h.once
  letThrough := h.letThrough
  held stop hstop hrefused := by
    obtain ⟨reads, hholds, hrequest, event, hmem, hevent⟩ := h.held stop hstop hrefused
    exact ⟨reads, hholds, hrequest, event, mem_take_append hmem, hevent⟩
  judged := h.judged
  holding := h.holding
  unseen := h.unseen

/-- A stop let through adds nothing to what is known of those refused. -/
theorem Known.proceed {live : Live} (h : Known redactor node session whose sha256 live)
    (stop : Stopping) : Known redactor node session whose sha256 (live.proceed stop) where
  once := by
    show ((live.answered ++ [_]).filter _).Pairwise _
    rw [List.filter_append]
    simpa using h.once
  letThrough other hother hcut := by
    rcases List.mem_append.mp hother with hother | hother
    · exact h.letThrough other hother hcut
    · rw [List.mem_singleton.mp hother]
  held other hother hrefused := by
    rcases List.mem_append.mp hother with hother | hother
    · exact h.held other hother hrefused
    · rw [List.mem_singleton.mp hother] at hrefused
      exact absurd hrefused Bool.false_ne_true
  judged other hphase := by rcases hphase with hphase | hphase | hphase <;> cases hphase
  holding other hphase := by rcases hphase with hphase | hphase <;> cases hphase
  unseen other hphase := by cases hphase

/-- A stop judged. -/
theorem Known.asked {live live' : Live} {judged : Judged}
    (h : Known redactor node session whose sha256 live)
    (hstep : step redactor runLog node session whose sha256 live (.ask judged) = some live') :
    Known redactor node session whose sha256 live' := by
  cases hphase : live.phase with
  | working =>
    cases judged with
    | ok reads =>
      simp only [step, hphase] at hstep
      obtain rfl := Option.some.inj hstep
      refine ⟨h.once, h.letThrough, h.held, fun stop hstop => ?_, fun stop hstop => ?_,
        fun stop hstop => ?_⟩
      · rcases hstop with hstop | hstop | hstop
        · obtain rfl := Phase.judged.inj hstop
          exact ⟨reads, rfl⟩
        · cases hstop
        · cases hstop
      · rcases hstop with hstop | hstop <;> cases hstop
      · cases hstop
    | cancelled =>
      simp only [step, hphase] at hstep
      obtain rfl := Option.some.inj hstep
      exact h
    | failed =>
      simp only [step, hphase] at hstep
      obtain rfl := Option.some.inj hstep
      exact h
  | judged stop => simp [step, hphase] at hstep
  | held stop => simp [step, hphase] at hstep
  | unseen stop => simp [step, hphase] at hstep

/-- The token read: a stop that goes on is one the close would not take, and it had not fired. -/
theorem Known.checked {live live' : Live} (h : Known redactor node session whose sha256 live)
    (hstep : step redactor runLog node session whose sha256 live .check = some live') :
    Known redactor node session whose sha256 live' := by
  cases hphase : live.phase with
  | working => simp [step, hphase] at hstep
  | held stop => simp [step, hphase] at hstep
  | unseen stop => simp [step, hphase] at hstep
  | judged stop =>
    simp only [step, hphase] at hstep
    split at hstep
    · obtain rfl := Option.some.inj hstep
      exact h.proceed stop
    next hholds =>
    obtain rfl := Option.some.inj hstep
    simp only [Bool.or_eq_true, Bool.not_eq_true', not_or, Bool.not_eq_false, Bool.not_eq_true]
      at hholds
    refine ⟨h.once, h.letThrough, h.held, fun other hother => ?_, fun other hother => ?_,
      fun other hother => by cases hother⟩
    · rcases hother with hother | hother | hother
      · cases hother
      · obtain rfl := Phase.held.inj hother
        exact h.judged stop (Or.inl hphase)
      · cases hother
    · rcases hother with hother | hother
      · obtain rfl := Phase.held.inj hother
        exact hholds
      · cases hother

/-- A stop held on the work of one refused before is of the state the log holds a refusal of. -/
theorem Known.seen {live : Live} {stop : Stopping} {old : Answered}
    (h : Known redactor node session whose sha256 live) (haccepted : Accepted live.log)
    (hphase : live.phase = .held stop) (hold : old ∈ live.answered) (hrefused : old.refused = true)
    (hequal : old.work = stop.work ∧ old.decision = stop.judgement.request) :
    (derive live.log).nodes.stopRefusedOn node session (sha256 stop.judgement.digested) = true := by
  obtain ⟨reads, hreads⟩ := h.judged stop (Or.inr (Or.inl hphase))
  obtain ⟨-, hheld⟩ := h.holding stop (Or.inl hphase)
  obtain ⟨oldReads, hholds, hrequest, event, hmem, hnode, hpayload⟩ := h.held old hold hrefused
  rw [hequal.1] at hholds hrequest hpayload
  have hdigest : (judge whose stop.work oldReads).digested = stop.judgement.digested := by
    rw [hreads] at hheld hequal ⊢
    exact digested_eq whose hholds hheld (hrequest.trans hequal.2)
  rw [← hdigest]
  exact stopRefusedOn_of_mem haccepted (List.mem_of_mem_take hmem) hnode hpayload

/-- The log read: a stop that goes on is of a state it holds no refusal of. -/
theorem Known.reread {live live' : Live} {readable : Bool}
    (h : Known redactor node session whose sha256 live)
    (hrecalls : Recalls redactor session live (.reread readable))
    (hstep : step redactor runLog node session whose sha256 live (.reread readable) = some live') :
    Known redactor node session whose sha256 live' := by
  cases hphase : live.phase with
  | working => simp [step, hphase] at hstep
  | judged stop => simp [step, hphase] at hstep
  | unseen stop => simp [step, hphase] at hstep
  | held stop =>
    simp only [step, hphase] at hstep
    split at hstep
    · obtain rfl := Option.some.inj hstep
      exact h.proceed stop
    split at hstep
    · obtain rfl := Option.some.inj hstep
      exact h.proceed stop
    next hseen =>
    obtain rfl := Option.some.inj hstep
    refine ⟨h.once, h.letThrough, h.held, fun other hother => ?_, fun other hother => ?_,
      fun other hother => ?_⟩
    · rcases hother with hother | hother | hother
      · cases hother
      · cases hother
      · obtain rfl := Phase.unseen.inj hother
        exact h.judged stop (Or.inr (Or.inl hphase))
    · rcases hother with hother | hother
      · cases hother
      · obtain rfl := Phase.unseen.inj hother
        exact h.holding stop (Or.inl hphase)
    · obtain rfl := Phase.unseen.inj hother
      exact ⟨hrecalls.1, fun old hold hrefused hequal =>
        hseen (h.seen hrecalls.2 hphase hold hrefused hequal)⟩

/-- A refusal logged under the session's id, and heard after. -/
theorem Known.refused {live : Live} {stop : Stopping} {payload : StopRefused}
    (h : Known redactor node session whose sha256 live) (hphase : live.phase = .unseen stop)
    (hkept : redactor.payload (refusal session whose sha256 stop.judgement) = some payload) :
    Known redactor node session whose sha256
      { live with
        log := runLog.record live.log (some node) (kept payload)
        phase := .working
        answered := live.answered ++ [⟨stop.work, stop.judgement.request, live.token, true,
          (runLog.record live.log (some node) (kept payload)).length, true⟩] } := by
  obtain ⟨reads, hreads⟩ := h.judged stop (Or.inr (Or.inr hphase))
  obtain ⟨htoken, hheld⟩ := h.holding stop (Or.inr hphase)
  obtain ⟨hsame, hnew⟩ := h.unseen stop hphase
  have hstate : payload.state = sha256 stop.judgement.digested := Redactor.payload_state hkept
  have hsession : payload.sessionId = session := Redactor.payload_session hkept hsame
  refine ⟨?_, fun other hother hcut => ?_, fun other hother hrefused => ?_,
    fun other hphase => ?_, fun other hphase => ?_, fun other hphase => by cases hphase⟩
  · show ((live.answered ++ [_]).filter _).Pairwise _
    rw [List.filter_append, List.pairwise_append]
    refine ⟨h.once, by simp, fun a ha b hb => ?_⟩
    obtain ⟨hold, hrefused⟩ := List.mem_filter.mp ha
    obtain rfl := List.mem_singleton.mp (List.mem_filter.mp hb).1
    exact hnew a hold hrefused
  · rcases List.mem_append.mp hother with hother | hother
    · exact h.letThrough other hother hcut
    · rw [List.mem_singleton.mp hother] at hcut
      rcases hcut with hcut | hcut
      · exact absurd (htoken.symm.trans hcut) Bool.false_ne_true
      · cases hcut
  · rcases List.mem_append.mp hother with hother | hother
    · obtain ⟨reads, hholds, hrequest, event, hmem, hevent⟩ := h.held other hother hrefused
      exact ⟨reads, hholds, hrequest, event, mem_take_append hmem, hevent⟩
    · rw [List.mem_singleton.mp hother]
      refine ⟨reads, hreads ▸ hheld, by rw [← hreads],
        runLog.next live.log (some node) (kept payload), ?_, rfl, ?_⟩
      · rw [List.take_length]
        exact List.mem_append_right _ (List.mem_singleton.mpr rfl)
      · rw [RunLog.payload_next, kept, hsession, hstate, hreads]
  · rcases hphase with hphase | hphase | hphase <;> cases hphase
  · rcases hphase with hphase | hphase <;> cases hphase

/-- **One step keeps what is known**, where the check recalls its own refusals. -/
theorem known_step {live live' : Live} {act : Act}
    (h : Known redactor node session whose sha256 live)
    (hrecalls : Recalls redactor session live act)
    (hstep : step redactor runLog node session whose sha256 live act = some live') :
    Known redactor node session whose sha256 live' := by
  cases act with
  | change work =>
    obtain rfl := Option.some.inj hstep
    exact ⟨h.once, h.letThrough, h.held, h.judged, h.holding, h.unseen⟩
  | event event =>
    obtain rfl := Option.some.inj hstep
    exact h.longer [event]
  | cancel =>
    obtain rfl := Option.some.inj hstep
    refine ⟨h.once, h.letThrough, h.held, h.judged, fun stop hstop => ?_, h.unseen⟩
    -- nobody waits on a token already read
    have hfree : live.phase.held? = false := hrecalls
    rcases hstop with hstop | hstop <;>
      (have hphase : live.phase = _ := hstop; rw [hphase] at hfree; cases hfree)
  | ask judged => exact h.asked hstep
  | check => exact h.checked hstep
  | reread readable => exact h.reread hrecalls hstep
  | append ok =>
    cases hphase : live.phase with
    | working => simp [step, hphase] at hstep
    | judged stop => simp [step, hphase] at hstep
    | held stop => simp [step, hphase] at hstep
    | unseen stop =>
      simp only [step, hphase] at hstep
      split at hstep
      · next payload hpayload =>
        obtain rfl := Option.some.inj hstep
        split at hpayload
        · exact h.refused hphase hpayload
        · cases hpayload
      · obtain rfl := Option.some.inj hstep
        exact h.proceed stop

/-- **A stop is refused at most once for one state of the work.**  Over any stops of the session,
    any changes of its work, a token that fires between any two of them and any appends of the run,
    each of which may fail: no two are refused for one work and one decision; a stop whose token
    fired, or whose refusal was not logged, is let through; and a refusal was on the log, under the
    session's id, when the session heard it. -/
theorem refused_once {log : List StoredEvent} {work : Work} {live : Live}
    (h : Reached (step redactor runLog node session whose sha256) (Recalls redactor session)
      (turn log work) live) :
    ((live.answered.filter (·.refused)).Pairwise fun a b =>
        ¬ (a.work = b.work ∧ a.decision = b.decision)) ∧
      (∀ stop ∈ live.answered, stop.fired = true ∨ stop.logged = false → stop.refused = false) ∧
      ∀ stop ∈ live.answered, stop.refused = true →
        ∃ state, ∃ event ∈ live.log.take stop.logLength, event.nodeId = some node ∧
          event.payload = some (.session (.stopRefused ⟨session, state⟩)) := by
  have hstart : Known redactor node session whose sha256 (turn log work) := by
    refine ⟨.nil, fun stop hstop => ?_, fun stop hstop => ?_, fun stop hstop => ?_,
      fun stop hstop => ?_, fun stop hstop => by cases hstop⟩
    · exact absurd hstop List.not_mem_nil
    · exact absurd hstop List.not_mem_nil
    · rcases hstop with hstop | hstop | hstop <;> cases hstop
    · rcases hstop with hstop | hstop <;> cases hstop
  have hknown := h.invariant hstart fun s act s' hs hmeets htaken => known_step hs hmeets htaken
  refine ⟨hknown.once, hknown.letThrough, fun stop hstop hrefused => ?_⟩
  obtain ⟨reads, -, -, event, hmem, hevent⟩ := hknown.held stop hstop hrefused
  exact ⟨_, event, hmem, hevent⟩

end

/-- A digest, for the runs below. -/
def sampleDigest (digested : Judgement.Digested) : ContentHash :=
  .ofList (List.replicate 64 (if digested.1 = some "t1" then 'a' else 'b'))

/-- One whole stop of a session outside its scope. -/
def wholeStop : List Act := [.ask (.ok { violations := ["a"] }), .check, .reread true, .append true]

/-- A session outside its scope stops, is sent back, stops again on the same work and is let stop; on
    other work it is sent back once more, and once it is cut it is let stop. -/
def sampleActs : List Act :=
  wholeStop ++ [.ask (.ok { violations := ["a"] }), .check, .reread true, .change ⟨"t2", []⟩] ++
    wholeStop ++ [.change ⟨"t3", []⟩, .ask (.ok { violations := ["a"] }), .cancel, .check]

theorem refused_once_sample : ∃ live : Live,
    live.answered.map (·.refused) = [true, false, true, false] ∧
      ((live.answered.filter (·.refused)).Pairwise fun a b =>
        ¬ (a.work = b.work ∧ a.decision = b.decision)) ∧
      ∀ stop ∈ live.answered, stop.fired = true ∨ stop.logged = false → stop.refused = false := by
  obtain ⟨live, hreached, hanswered⟩ := exists_reached
    (step (.ofValues ["s3cret"]) {} "build" "beta-1" .node sampleDigest)
    (Recalls (.ofValues ["s3cret"]) "beta-1") (turn [] ⟨"t1", []⟩) sampleActs
    (fun live => live.answered.map (·.refused) = [true, false, true, false]) (by decide +kernel)
  exact ⟨live, of_decide_eq_true hanswered, (refused_once hreached).1, (refused_once hreached).2.1⟩

/-- A session whose id holds a secret's value is sent back twice from the same work; and one whose
    token fires behind its check is sent back all the same. -/
theorem refused_twice :
    (¬ ∀ live : Live,
      Reached (step (.ofValues ["beta"]) {} "build" "beta-1" .node sampleDigest) Free
        (turn [] ⟨"t1", []⟩) live →
      (live.answered.filter (·.refused)).Pairwise fun a b =>
        ¬ (a.work = b.work ∧ a.decision = b.decision)) ∧
    ∃ live : Live, Reached (step (.ofValues []) {} "build" "beta-1" .node sampleDigest) Free
        (turn [] ⟨"t1", []⟩) live ∧
      live.answered.any (fun stop => stop.fired && stop.refused) = true := by
  refine ⟨fun h => ?_, ?_⟩
  · obtain ⟨live, hreached, htwice⟩ := exists_reached
      (step (.ofValues ["beta"]) {} "build" "beta-1" .node sampleDigest) Free
      (turn [] ⟨"t1", []⟩) (wholeStop ++ wholeStop)
      (fun live => (live.answered.filter (·.refused)).map (fun stop => (stop.work, stop.decision)) =
        [(⟨"t1", []⟩, none), (⟨"t1", []⟩, none)]) (by decide +kernel)
    have hmapped : ((live.answered.filter (·.refused)).map
        fun stop => (stop.work, stop.decision)).Pairwise
          (fun a b => ¬ (a.1 = b.1 ∧ a.2 = b.2)) :=
      List.pairwise_map.mpr (h live hreached)
    rw [of_decide_eq_true htwice] at hmapped
    exact List.rel_of_pairwise_cons hmapped (List.mem_singleton.mpr rfl) ⟨rfl, rfl⟩
  · exact exists_reached (step (.ofValues []) {} "build" "beta-1" .node sampleDigest) Free
      (turn [] ⟨"t1", []⟩)
      [.ask (.ok { violations := ["a"] }), .check, .cancel, .reread true, .append true]
      (fun live => live.answered.any fun stop => stop.fired && stop.refused) (by decide +kernel)

end Stop

end Yunta
