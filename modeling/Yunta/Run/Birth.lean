/-
  What a run is born with, and what a crash in the middle of its birth leaves it.

  1. **The birth** — `createRun` appends `run_created`, then for each birth artifact its acceptance
     and, where it is a tasks document, the registrations it entails; then the findings a successor
     holds as its own, and last the baseline of its lineage.

  2. **Who drives it** — a resume and a parent re-entering its child both ask the log one thing:
     whether it is empty.

  3. **What a birth is made of** — `birthFacts` lists, from the documents alone and in their order,
     what a birth gives its run: its artifacts, each task and where it is moved, its findings, its
     baseline.  The log of a birth reads as that list (`createRun_lists`), stage by stage.

  4. **When a cut run holds everything** — exactly when it is driven by nobody, or what is listed
     past the cut repeats what is listed before it (`holdsAtEveryEntry_iff`).
-/
import Yunta.Loop.Moves
import Yunta.Tasks.Registration

set_option linter.unusedVariables false

namespace Yunta

/-! ## The birth -/

/-- How a run comes by an artifact before any of its nodes runs. -/
inductive BirthOrigin where
  | input (name : String)
  | inherited (run : RunId) (producer : Option NodeId)
  deriving DecidableEq

def BirthOrigin.recorded : BirthOrigin → ArtifactOrigin
  | .input name => .input name
  | .inherited run producer => .inherited run producer

/-- An artifact a run carries from birth. -/
structure BirthArtifact where
  artifact : ArtifactId
  origin : BirthOrigin
  bytes : String
  deriving DecidableEq

/-- One birth artifact that is a tasks document: what it says, and what of it the run's own tree
    already has; `none` when an input named it. -/
structure BirthDocument where
  document : TasksFile
  carried : Option (OrdMap TaskId CommitSha)

def BirthDocument.provenance (birth : BirthDocument) : Provenance :=
  match birth.carried with
  | some carried => .inherited carried
  | none => .fresh

/-- The measurement of the lineage a run is born into, named by the run that took it. -/
structure BirthBaseline where
  measuredBy : RunId
  command : String
  results : BaselineResults
  hash : ContentHash
  held : List BaselineHeldPayload := []

namespace BirthBaseline

/-- The fact as the run receiving it records it. -/
def captured (baseline : BirthBaseline) : BaselineCapturedPayload where
  command := baseline.command
  results := baseline.results
  hash := baseline.hash
  origin := .inherited baseline.measuredBy

/-- Each held command's fact as the run receiving it records it. -/
def heldFacts (baseline : BirthBaseline) : List BaselineHeldPayload :=
  baseline.held.map fun held =>
    { held with origin := .inherited baseline.measuredBy, tree := none, durationMs := none }

end BirthBaseline

/-- What the reading of a tree states of a plan: what a task may reach there, or what the tree held
    of the plan's shapes. -/
inductive Derived where
  | reach (p : ScopeDerivedPayload)
  | shapes (p : ShapesReadPayload)

def Derived.payload : Derived → EventPayload
  | .reach p => .scope (.derived p)
  | .shapes p => .tasks (.shapesRead p)

/-- What a birth reads outside its log: the bytes of its artifacts, the logs of the runs they come
    from, and the tree it is born into. -/
structure BirthReads where
  hash : String → ContentHash
  tasks : String → Except String TasksFile
  findings : String → Except String (List Finding)
  /-- Which tasks of a document the run that hands it over finished at a commit the tree carries. -/
  carriedInto : RunId → TasksFile → Except String (OrdMap TaskId CommitSha)
  derived : List StoredEvent → TasksFile → List Derived

/-- What a birth freezes. -/
structure CreateRunParams where
  /-- The modes the workflow declares, when it declares any. -/
  modes : Option (List ModeName) := none
  created : RunCreatedPayload
  promotedFrom : Option RunId := none
  artifacts : List BirthArtifact := []
  baseline : Option BirthBaseline := none

/-- Refuses a mode the workflow does not declare; `default` always passes. -/
def checkMode (modes : Option (List ModeName)) (mode : ModeName) : Except String Unit :=
  if mode = "default" then .ok ()
  else
    match modes with
    | some modes => if mode ∈ modes then .ok () else .error ("unknown mode `" ++ mode ++ "`")
    | none => .error ("unknown mode `" ++ mode ++ "`")

section
variable (reads : BirthReads) (log : RunLog)

/-- Reads one birth artifact, when it is a tasks document, and asks the tree what it carries of
    it. -/
def birthRegistration (artifact : BirthArtifact) : Except String (Option BirthDocument) :=
  if artifact.artifact ≠ .interpreted .tasks then .ok none
  else
    match reads.tasks artifact.bytes with
    | .error report => .error report
    | .ok document =>
      match artifact.origin with
      | .input _ => .ok (some ⟨document, none⟩)
      | .inherited run _ =>
        (reads.carriedInto run document).map fun carried => some ⟨document, some carried⟩

/-- Reads every tasks document among `artifacts`.  Entries line up with them by position. -/
def birthRegistrations : List BirthArtifact → Except String (List (Option BirthDocument))
  | [] => .ok []
  | artifact :: rest =>
    match birthRegistration reads artifact, birthRegistrations rest with
    | .ok birth, .ok births => .ok (birth :: births)
    | .error report, _ => .error report
    | .ok _, .error report => .error report

/-- The acceptance of one birth artifact. -/
def acceptance (artifact : BirthArtifact) : EventPayload :=
  .artifacts
    (.accepted ⟨artifact.artifact, reads.hash artifact.bytes, artifact.origin.recorded⟩)

/-- States what the tree's reading says of `document`. -/
def deriveFromTree (events : List StoredEvent) (document : TasksFile) : List StoredEvent :=
  (reads.derived events document).foldl
    (fun events derived => log.record events none derived.payload) events

/-- Accepts one birth artifact and, for a tasks document, registers what the run has to do about
    it. -/
def registerBirthDocument (events : List StoredEvent)
    (birth : BirthArtifact × Option BirthDocument) : List StoredEvent :=
  let events := log.record events none (acceptance reads birth.1)
  match birth.2 with
  | none => events
  | some birth =>
    deriveFromTree reads log (register log events none birth.document birth.provenance)
      birth.document

/-- Accepts every birth artifact in order, each one's registrations right after it. -/
def registerBirthDocuments (events : List StoredEvent) (artifacts : List BirthArtifact)
    (documents : List (Option BirthDocument)) : List StoredEvent :=
  (artifacts.zip documents).foldl (registerBirthDocument reads log) events

/-- Whether a birth artifact is a findings document another run left unsettled. -/
def BirthArtifact.isRunLevelFindings (artifact : BirthArtifact) : Bool :=
  artifact.artifact = .interpreted .findings &&
    match artifact.origin with
    | .inherited _ none => true
    | _ => false

/-- Posts the entries of each document in order, and stops at one that does not read. -/
def postFindings (events : List StoredEvent) :
    List BirthArtifact → List StoredEvent × Except String Unit
  | [] => (events, .ok ())
  | artifact :: rest =>
    match reads.findings artifact.bytes with
    | .error report => (events, .error report)
    | .ok held =>
      postFindings
        (held.foldl (fun events finding =>
          log.record events none (.findings (.posted finding))) events) rest

/-- A successor holds the findings its predecessor left unsettled as the run's own. -/
def holdInheritedFindings (events : List StoredEvent) (artifacts : List BirthArtifact) :
    List StoredEvent × Except String Unit :=
  postFindings reads log events (artifacts.filter (·.isRunLevelFindings))

/-- What the measurement of a lineage writes: the capture, then each hold that goes with it. -/
def baselineFacts (baseline : BirthBaseline) : List EventPayload :=
  .run (.baselineCaptured baseline.captured) ::
    baseline.heldFacts.map fun held => .run (.baselineHeld held)

def recordBaseline (events : List StoredEvent) (baseline : BirthBaseline) : List StoredEvent :=
  (baselineFacts baseline).foldl (fun events payload => log.record events none payload) events

/-- What a run is born with after its artifacts: the findings of a successor, and last the
    measurement of its lineage. -/
def inheritFacts (params : CreateRunParams) (events : List StoredEvent) :
    List StoredEvent × Except String Unit :=
  let held :=
    if params.promotedFrom.isSome then holdInheritedFindings reads log events params.artifacts
    else (events, .ok ())
  match held.2, params.baseline with
  | .error report, _ => (held.1, .error report)
  | .ok (), some baseline => (recordBaseline log held.1 baseline, .ok ())
  | .ok (), none => (held.1, .ok ())

/-- Creates a run: the log its birth writes, and whether the birth came to its end.  Everything the
    run must answer for is read before it exists. -/
def createRun (params : CreateRunParams) : List StoredEvent × Except String Unit :=
  match checkMode params.modes params.created.mode, birthRegistrations reads params.artifacts with
  | .error report, _ => ([], .error report)
  | .ok (), .error report => ([], .error report)
  | .ok (), .ok documents =>
    let events := log.record [] none (.run (.created params.created))
    inheritFacts reads log params
      (registerBirthDocuments reads log events params.artifacts documents)

end

/-! ## Who drives it -/

/-- What an invocation does with the run whose log it reads. -/
inductive Startup where
  | unknownRun | finished | driven
  deriving DecidableEq

/-- Wakes a run: refuses one with no log, answers one whose log already ends, and drives any
    other. -/
def start (events : List StoredEvent) : Startup :=
  if events.isEmpty then .unknownRun
  else if (derive events).run.finished.isSome then .finished
  else .driven

/-- The child a workflow node resumes: the last one it started that never closed, when that one
    has a log.  Without one the node gives birth to a fresh child. -/
def resumedChild (parent : RunState) (node : NodeId) (logs : RunId → List StoredEvent) :
    Option RunId :=
  (parent.children.openUnder node).bind fun link =>
    if (logs link.runId).isEmpty then none else some link.runId

/-- How a later invocation comes to a run: by its name, or through the node that started it. -/
inductive Arrival where
  | resume
  | reentered (parent : RunState) (node : NodeId)

/-- Whether an invocation drives `run`. -/
def Arrival.drives (logs : RunId → List StoredEvent) (run : RunId) : Arrival → Bool
  | .resume => start (logs run) = .driven
  | .reentered parent node => resumedChild parent node logs = some run && start (logs run) = .driven

/-! ## What a run is born with -/

/-- Whether an event gives the run something it is born holding. -/
def gives : EventPayload → Bool
  | .artifacts (.accepted _) | .findings (.posted _) => true
  | .run (.baselineCaptured _) | .run (.baselineHeld _) => true
  | _ => false

section
variable (reads : BirthReads) (log : RunLog) (params : CreateRunParams)

/-- Every finding a document hands over. -/
def heldFindings (artifact : BirthArtifact) : List Finding :=
  match reads.findings artifact.bytes with
  | .ok held => held
  | .error _ => []

/-- The findings a successor holds as its own. -/
def inheritedFindings : List Finding :=
  if params.promotedFrom.isSome then
    (params.artifacts.filter (·.isRunLevelFindings)).flatMap (heldFindings reads)
  else []

/-- What a birth gives its run after its artifacts. -/
def inheritedPayloads : List EventPayload :=
  (inheritedFindings reads params).map (fun finding => .findings (.posted finding)) ++
    (params.baseline.map baselineFacts).getD []

/-- What a birth owes its run beside its tasks, in the order it gives it. -/
def due : List EventPayload := params.artifacts.map (acceptance reads) ++ inheritedPayloads reads params

/-- The documents among the birth artifacts, each beside its artifact. -/
def birthPairs : List (BirthArtifact × Option BirthDocument) :=
  match birthRegistrations reads params.artifacts with
  | .ok documents => params.artifacts.zip documents
  | .error _ => []

/-- The tasks one birth artifact brings with it. -/
def tasksOf (birth : Option BirthDocument) : List Task :=
  (birth.map (·.document.tasks)).getD []

/-- Every task of the tasks documents among the birth artifacts. -/
def birthTasks : List Task := (birthPairs reads params).flatMap fun birth => tasksOf birth.2

/-- The log a birth writes when nothing cuts it, and what a crash leaves of it. -/
def birthLog : List StoredEvent := (createRun reads log params).1

def birthCut (k : Nat) : List StoredEvent := (birthLog reads log params).take k

/-- Whether the log holds an event that states `payload`. -/
def States (events : List StoredEvent) (payload : EventPayload) : Prop :=
  ∃ event ∈ events, event.payload = some payload

/-- A log that holds everything the run was born with: each acceptance, inherited finding and
    measurement, and every task of its documents at the status the whole birth gives it. -/
structure HoldsBirth (events : List StoredEvent) : Prop where
  given : ∀ payload ∈ due reads params, States events payload
  tasks : ∀ task ∈ birthTasks reads params, ∃ status,
    (derive events).tasks.status task.id = some status ∧
    (derive (birthLog reads log params)).tasks.status task.id = some status

/-- Whatever invocation drives the run a crash cut after `k` appends finds everything in its
    log. -/
def HoldsAtEveryEntry (k : Nat) : Prop :=
  ∀ logs run entry, logs run = birthCut reads log params k → Arrival.drives logs run entry = true →
    HoldsBirth reads log params (logs run)

end

/-! ## What a birth is made of -/

/-- One thing a birth gives its run: something it is born holding, a task, or where a task is
    moved. -/
inductive BirthFact where
  | holds (payload : EventPayload)
  | task (id : TaskId)
  | moved (id : TaskId) (status : TaskStatus)
  deriving DecidableEq

/-- Where one fact leaves a task, over where it stood. -/
def BirthFact.standing (id : TaskId) (stood : Option TaskStatus) : BirthFact → Option TaskStatus
  | .task other => if other = id then some (stood.getD .pending) else stood
  | .moved other status => if other = id then stood.map fun _ => status else stood
  | .holds _ => stood

/-- Where facts leave a task nobody registered before. -/
def standing (facts : List BirthFact) (id : TaskId) : Option TaskStatus :=
  facts.foldl (BirthFact.standing id) none

/-- What follows the registration of a task, as a fact. -/
def followFacts (id : TaskId) : Option Follow → List BirthFact
  | none => []
  | some .reset => [.moved id .pending]
  | some (.done _) => [.moved id .done]

/-- What a birth has listed so far: what its documents make of each task, and the facts. -/
structure Listed where
  tasks : OrdMap TaskId Identity := ∅
  facts : List BirthFact := []

namespace Listed

/-- One task of a document: a reset where an earlier document states another, done where it crossed
    and is not done already. -/
def entry (listed : Listed) (carried : OrdMap TaskId CommitSha) (task : Task) : List BirthFact :=
  .task task.id :: followFacts task.id
    (followOf task listed.tasks[task.id]? (standing listed.facts task.id) carried[task.id]?)

def document (listed : Listed) (birth : BirthDocument) : Listed where
  tasks := birth.document.tasks.foldl (fun prior task => prior.insert task.id (.of task)) listed.tasks
  facts := listed.facts ++ birth.document.tasks.flatMap (listed.entry birth.provenance.carried)

/-- Lists things the run is born holding. -/
def holds (listed : Listed) (payloads : List EventPayload) : Listed :=
  { listed with facts := listed.facts ++ payloads.map .holds }

@[simp] theorem holds_nil (listed : Listed) : listed.holds [] = listed := by
  rw [holds, List.map_nil, List.append_nil]

@[simp] theorem holds_holds (listed : Listed) (first second : List EventPayload) :
    (listed.holds first).holds second = listed.holds (first ++ second) := by
  rw [holds, holds, holds, List.map_append, List.append_assoc]

def artifact (reads : BirthReads) (listed : Listed) (birth : BirthArtifact × Option BirthDocument) :
    Listed :=
  birth.2.elim (listed.holds [acceptance reads birth.1])
    (listed.holds [acceptance reads birth.1]).document

end Listed

/-- What a birth gives its run, in the order of its documents, from what they say. -/
def birthFacts (reads : BirthReads) (params : CreateRunParams) : List BirthFact :=
  (((birthPairs reads params).foldl (Listed.artifact reads) {}).holds
    (inheritedPayloads reads params)).facts

/-- The fact an event records; the readings of a tree record none. -/
def BirthFact.of (event : StoredEvent) : Option BirthFact :=
  match event.payload with
  | some (.tasks (.registered p)) => some (.task p.taskId)
  | some (.tasks (.statusChanged p)) => some (.moved p.taskId p.newStatus)
  | some payload => if gives payload then some (.holds payload) else none
  | none => none

/-- How many of the facts were written when the crash cut the birth after `k` appends. -/
def written (reads : BirthReads) (log : RunLog) (params : CreateRunParams) (k : Nat) : Nat :=
  ((birthCut reads log params k).filterMap BirthFact.of).length

/-- Where facts move a task last. -/
def lastMove (id : TaskId) (facts : List BirthFact) : Option TaskStatus :=
  (facts.filterMap fun
    | .moved other status => if other = id then some status else none
    | _ => none).getLast?

/-- What is listed from the `n`th fact on repeats what is listed before it: each artifact, finding
    and measurement, each task, and for each task the status it is moved to last. -/
structure Repeats (facts : List BirthFact) (n : Nat) : Prop where
  held : ∀ payload, .holds payload ∈ facts.drop n → .holds payload ∈ facts.take n
  tasks : ∀ id, .task id ∈ facts.drop n → .task id ∈ facts.take n
  moved : ∀ id status, .task id ∈ facts → lastMove id (facts.drop n) = some status →
    standing (facts.take n) id = some status

/-! ### Where facts leave a task -/

theorem standing_append (first second : List BirthFact) (id : TaskId) :
    standing (first ++ second) id = second.foldl (BirthFact.standing id) (standing first id) :=
  List.foldl_append

/-- A task stands somewhere exactly when it is listed. -/
theorem standing_isSome {facts : List BirthFact} {id : TaskId} :
    (standing facts id).isSome = true ↔ .task id ∈ facts := by
  induction facts using List.reverseRecOn with
  | nil => simp [standing]
  | append_singleton facts fact ih =>
    rw [standing_append, List.foldl_cons, List.foldl_nil, List.mem_append, List.mem_singleton, ← ih]
    cases fact with
    | holds payload => simp [BirthFact.standing]
    | moved other status =>
      by_cases hid : other = id <;> simp [BirthFact.standing, hid]
    | task other =>
      by_cases hid : other = id
      · simp [BirthFact.standing, hid]
      · simp [BirthFact.standing, hid, Ne.symm hid]

/-- A task that stands is left where the facts move it last. -/
theorem foldl_standing {facts : List BirthFact} {id : TaskId} {stood : TaskStatus} :
    facts.foldl (BirthFact.standing id) (some stood) = some ((lastMove id facts).getD stood) := by
  induction facts generalizing stood with
  | nil => rfl
  | cons fact facts ih =>
    rw [List.foldl_cons]
    cases fact with
    | holds payload => exact ih
    | task other =>
      have hsame : BirthFact.standing id (some stood) (.task other) = some stood := by
        simp [BirthFact.standing]
      rw [hsame]
      exact ih
    | moved other status =>
      by_cases hid : other = id
      · simp [BirthFact.standing, hid, ih, lastMove, List.getLast?_cons]
      · simp [BirthFact.standing, hid, ih, lastMove]

/-! ## The log of a birth reads as its facts -/

/-- A task nothing registered stays so until it is registered. -/
theorem status_taken_none {s : RunState} {event : StoredEvent} (h : s.refuse event = .ok ())
    {id : TaskId} (hnone : s.tasks.status id = none) :
    (s.taken event).tasks.status id = if registers id event then some .pending else none := by
  have hget : s.tasks.get id = none := Option.map_eq_none_iff.mp hnone
  unfold registers
  cases hp : event.payload with
  | none => rw [RunState.taken_unknown hp]; exact hnone
  | some payload =>
    cases payload with
    | run e => rw [RunState.taken_run hp]; exact hnone
    | node e => rw [RunState.taken_node hp]; cases e <;> exact hnone
    | session e => rw [RunState.taken_session h hp]; exact (Loop.status_applySession e).trans hnone
    | scope e => rw [RunState.taken_scope h hp]; exact hnone
    | findings e => rw [RunState.taken_finding hp]; exact hnone
    | artifacts e => rw [RunState.taken_artifact hp]; exact hnone
    | gates e => rw [RunState.taken_gate h hp]; exact hnone
    | children e => rw [RunState.taken_child hp]; exact hnone
    | tasks e =>
      rw [RunState.taken_task h hp]
      cases e with
      | registered p =>
        show TaskLedger.status _ id = _
        rw [TaskLedger.status, TaskLedger.get_registered, hget]
        by_cases hid : p.taskId = id <;> simp [hid, TaskRecord.registered]
      | statusChanged p =>
        show TaskLedger.status _ id = _
        by_cases hcontains : s.tasks.contains p.taskId = true
        · rw [TaskLedger.status, TaskLedger.get_statusChanged _ hcontains, hget]
          split <;> rfl
        · have hother : s.tasks.get p.taskId = none := by
            by_contra hsome
            exact hcontains ((s.tasks.contains_iff _).mpr (Option.ne_none_iff_exists'.mp hsome))
          simpa [TaskLedger.apply, TaskLedger.statusChanged, TaskLedger.withTask, hother] using hnone
      | deviationDeclared p =>
        exact (Loop.status_withTask (f := fun r =>
          { r with departuresOwed := r.departuresOwed ++ [p] }) fun _ => rfl).trans hnone
      | deviationResolved p =>
        exact (Loop.status_withTask (f := fun r => r.answered p event.meta_.seq) fun _ => rfl).trans
          hnone
      | _ => exact hnone

/-- What a run is born holding moves no task. -/
theorem foldl_standing_holds (payload : EventPayload) (id : TaskId) (stood : Option TaskStatus) :
    (if gives payload then some (BirthFact.holds payload) else none).toList.foldl
      (BirthFact.standing id) stood = stood := by
  split <;> rfl

/-- A taken event leaves a task where the fact it records does. -/
theorem status_taken_fact {s : RunState} {event : StoredEvent} (h : s.refuse event = .ok ())
    (id : TaskId) : (s.taken event).tasks.status id =
      (BirthFact.of event).toList.foldl (BirthFact.standing id) (s.tasks.status id) := by
  cases hstood : s.tasks.status id with
  | none =>
    rw [status_taken_none h hstood, registers, BirthFact.of]
    cases event.payload with
    | none => rfl
    | some payload =>
      cases payload with
      | tasks e => cases e <;> simp [BirthFact.standing, gives]
      | _ => exact (foldl_standing_holds _ _ _).symm
  | some stood =>
    rw [Loop.status_taken h hstood, Loop.move, BirthFact.of]
    cases event.payload with
    | none => rfl
    | some payload =>
      cases payload with
      | tasks e =>
        cases e with
        | statusChanged p => by_cases hid : p.taskId = id <;> simp [Loop.moveOf, BirthFact.standing, hid]
        | registered p => by_cases hid : p.taskId = id <;> simp [Loop.moveOf, BirthFact.standing, hid]
        | _ => simp [Loop.moveOf, gives]
      | _ => exact (foldl_standing_holds _ _ _).symm

/-- **Where a task stands**, by an accepted log, is where its facts leave it. -/
theorem status_facts {events : List StoredEvent} (h : Accepted events) (id : TaskId) :
    (derive events).tasks.status id = standing (events.filterMap BirthFact.of) id := by
  induction events using List.reverseRecOn with
  | nil => rfl
  | append_singleton events event ih =>
    obtain ⟨hrefuse, hderive⟩ := derive_snoc h
    have hone : [event].filterMap BirthFact.of = (BirthFact.of event).toList := by
      cases hfact : BirthFact.of event <;> simp [hfact]
    rw [hderive, status_taken_fact hrefuse, ih (accepted_of_append h), List.filterMap_append,
      standing_append, hone]

/-- A payload any log takes, which closes no run and is about no task. -/
structure AlwaysTaken (log : RunLog) (payload : EventPayload) : Prop where
  takes : ∀ s events, RunState.refuse s (log.next events none payload) = .ok ()
  open_ : ∀ p, payload ≠ .run (.finished p)
  names : ∀ events, registeredIdentity (log.next events none payload) = none
  fact : ∀ events, BirthFact.of (log.next events none payload) =
    if gives payload then some (.holds payload) else none

/-- The log of a birth, by what it has listed: it has begun, is accepted and closes no run, and it
    records the facts and holds each task as listed. -/
structure Lists (events : List StoredEvent) (listed : Listed) : Prop where
  began : events ≠ []
  accepted : Accepted events
  open_ : ∀ event ∈ events, ∀ p, event.payload ≠ some (.run (.finished p))
  tasks : priorRegistrations events = listed.tasks
  facts : events.filterMap BirthFact.of = listed.facts

namespace Lists

variable {events : List StoredEvent} {listed : Listed} (log : RunLog) (reads : BirthReads)

/-- One payload the log takes. -/
theorem record (h : Lists events listed) {payload : EventPayload}
    (hok : (derive events).refuse (log.next events none payload) = .ok ())
    (hopen : ∀ p, payload ≠ .run (.finished p)) :
    Lists (log.record events none payload)
      ⟨match registeredIdentity (log.next events none payload) with
        | some (id, identity) => listed.tasks.insert id identity
        | none => listed.tasks,
      listed.facts ++ (BirthFact.of (log.next events none payload)).toList⟩ where
  began := by simp [RunLog.record]
  accepted := by
    rw [RunLog.record, Accepted, derive_append h.accepted, RunState.deriveFrom, RunState.apply_eq, hok]
    exact (RunState.taken_frame hok).2.2.trans h.accepted
  open_ event hmem p hp := by
    rcases List.mem_append.mp hmem with hmem | hmem
    · exact h.open_ event hmem p hp
    · obtain rfl := List.mem_singleton.mp hmem
      exact hopen p (Option.some.inj hp)
  tasks := by
    have htasks := priorRegistrations_append events (log.next events none payload)
    rw [h.tasks] at htasks
    exact htasks
  facts := by
    have hone : [log.next events none payload].filterMap BirthFact.of =
        (BirthFact.of (log.next events none payload)).toList := by
      cases hfact : BirthFact.of (log.next events none payload) <;> simp [hfact]
    rw [RunLog.record, List.filterMap_append, h.facts, hone]

/-- Payloads any log takes, recorded in order. -/
theorem recordAll {payloads : List EventPayload} (h : Lists events listed)
    (hfree : ∀ payload ∈ payloads, AlwaysTaken log payload) :
    Lists (payloads.foldl (fun events payload => log.record events none payload) events)
      (listed.holds (payloads.filter gives)) := by
  induction payloads generalizing events listed with
  | nil => simpa using h
  | cons payload rest ih =>
    have hpayload := hfree payload List.mem_cons_self
    have hfirst := h.record log (hpayload.takes _ _) hpayload.open_
    have hholds : (if gives payload then some (BirthFact.holds payload) else none).toList =
        ([payload].filter gives).map .holds := by
      cases hgives : gives payload <;> simp [hgives]
    have hnext : Lists (log.record events none payload)
        (listed.holds ([payload].filter gives)) := by
      simp only [hpayload.names, hpayload.fact, hholds] at hfirst
      exact hfirst
    have hrest := ih hnext fun other hmem => hfree other (List.mem_cons_of_mem _ hmem)
    have hsplit : (payload :: rest).filter gives = [payload].filter gives ++ rest.filter gives := by
      rw [← List.filter_append]
      rfl
    rw [hsplit, ← Listed.holds_holds]
    exact hrest

/-- One entry of a plan: its registration, and what follows it. -/
theorem recordPlanned (h : Lists events listed) (planned : Planned) :
    Lists (Yunta.recordPlanned log none events planned)
      ⟨listed.tasks.insert planned.task.id (.of planned.task),
        listed.facts ++ .task planned.task.id :: followFacts planned.task.id planned.follow⟩ := by
  have hfirst : Lists (recordRegistered log none events planned.task)
      ⟨listed.tasks.insert planned.task.id (.of planned.task),
        listed.facts ++ [.task planned.task.id]⟩ :=
    h.record log rfl fun _ h => nomatch h
  have hmove : ∀ p : TaskStatusChangedPayload, p.taskId = planned.task.id →
      Lists (log.record (recordRegistered log none events planned.task) none
        (.tasks (.statusChanged p)))
        ⟨listed.tasks.insert planned.task.id (.of planned.task),
          listed.facts ++ ([.task planned.task.id] ++ [.moved p.taskId p.newStatus])⟩ := by
    intro p hp
    rw [← List.append_assoc]
    refine hfirst.record log ?_ fun _ h => nomatch h
    obtain ⟨-, hstanding⟩ := registered_standing log none h.accepted planned.task
    have hcontains : (derive (recordRegistered log none events planned.task)).tasks.contains
        p.taskId = true := by
      rw [TaskLedger.contains_standing, hstanding, if_pos hp.symm]
      rfl
    simp [RunState.refuse, RunState.refuseTask, RunState.taskNamed, hcontains]
  obtain ⟨task, follow⟩ := planned
  rcases follow with _ | _ | commit
  · exact hfirst
  · exact hmove (.to task.id .pending _) rfl
  · exact hmove (.done task.id _ commit) rfl

theorem recordPlan (h : Lists events listed) (plan : List Planned) :
    Lists (plan.foldl (Yunta.recordPlanned log none) events)
      ⟨plan.foldl (fun prior planned => prior.insert planned.task.id (.of planned.task)) listed.tasks,
        listed.facts ++ plan.flatMap fun planned =>
          .task planned.task.id :: followFacts planned.task.id planned.follow⟩ := by
  induction plan generalizing events listed with
  | nil => simpa using h
  | cons planned plan ih => simpa using ih (h.recordPlanned log planned)

/-- **A registration** is planned over the log as it is over what is listed. -/
theorem register (h : Lists events listed) (birth : BirthDocument) :
    Lists (Yunta.register log events none birth.document birth.provenance)
      (listed.document birth) := by
  have hplan := h.recordPlan log (planRegistration birth.document (priorRegistrations events)
    (derive events).tasks birth.provenance.carried)
  have hstanding : (derive events).tasks.status = standing listed.facts :=
    funext fun id => h.facts ▸ status_facts h.accepted id
  have htasks : (planRegistration birth.document (priorRegistrations events) (derive events).tasks
      birth.provenance.carried).foldl
        (fun prior planned => prior.insert planned.task.id (.of planned.task)) listed.tasks =
      (listed.document birth).tasks := by
    rw [planRegistration, List.foldl_map]
    rfl
  have hentries : (planRegistration birth.document (priorRegistrations events)
      (derive events).tasks birth.provenance.carried).flatMap (fun planned =>
        .task planned.task.id :: followFacts planned.task.id planned.follow) =
      birth.document.tasks.flatMap (listed.entry birth.provenance.carried) := by
    simp only [planRegistration, List.flatMap_map, h.tasks, hstanding]
    rfl
  rw [htasks, hentries] at hplan
  exact hplan

theorem deriveFromTree (h : Lists events listed) (document : TasksFile) :
    Lists (Yunta.deriveFromTree reads log events document) listed := by
  have hfree : ∀ payload ∈ (reads.derived events document).map Derived.payload,
      AlwaysTaken log payload := by
    intro payload hmem
    obtain ⟨derived, -, rfl⟩ := List.mem_map.mp hmem
    cases derived with
    | reach p => exact ⟨fun _ _ => rfl, by simp [Derived.payload], fun _ => rfl, fun _ => rfl⟩
    | shapes p => exact ⟨fun _ _ => rfl, by simp [Derived.payload], fun _ => rfl, fun _ => rfl⟩
  have hnone : ((reads.derived events document).map Derived.payload).filter gives = [] := by
    rw [List.filter_eq_nil_iff]
    intro payload hmem
    obtain ⟨derived, -, rfl⟩ := List.mem_map.mp hmem
    cases derived <;> simp [Derived.payload, gives]
  have hall := h.recordAll log hfree
  rw [hnone, List.foldl_map, Listed.holds_nil] at hall
  exact hall

/-- **One birth artifact**: its acceptance, and every task of it when it is a tasks document. -/
theorem artifact (h : Lists events listed) (birth : BirthArtifact × Option BirthDocument) :
    Lists (registerBirthDocument reads log events birth) (listed.artifact reads birth) := by
  have haccept : Lists (log.record events none (acceptance reads birth.1))
      (listed.holds [acceptance reads birth.1]) :=
    h.record log rfl fun _ h => nomatch h
  obtain ⟨artifact, _ | birth⟩ := birth
  · exact haccept
  · exact (haccept.register log birth).deriveFromTree log reads birth.document

theorem artifacts (h : Lists events listed) (births : List (BirthArtifact × Option BirthDocument)) :
    Lists (births.foldl (registerBirthDocument reads log) events)
      (births.foldl (Listed.artifact reads) listed) := by
  induction births generalizing events listed with
  | nil => exact h
  | cons birth births ih => exact ih (h.artifact log reads birth)

/-- Findings documents that all read are posted whole. -/
theorem postFindings {artifacts : List BirthArtifact} (h : Lists events listed)
    (hok : (Yunta.postFindings reads log events artifacts).2 = .ok ()) :
    Lists (Yunta.postFindings reads log events artifacts).1
      (listed.holds ((artifacts.flatMap (heldFindings reads)).map
        fun finding => .findings (.posted finding))) := by
  induction artifacts generalizing events listed with
  | nil =>
    rw [List.flatMap_nil, List.map_nil, Listed.holds_nil]
    exact h
  | cons artifact rest ih =>
    rw [Yunta.postFindings] at hok ⊢
    cases hread : reads.findings artifact.bytes with
    | error report => rw [hread] at hok; cases hok
    | ok held =>
      simp only [hread] at hok ⊢
      have hheld : heldFindings reads artifact = held := by rw [heldFindings, hread]
      have hposted : Lists
          (held.foldl (fun events finding =>
            log.record events none (.findings (.posted finding))) events)
          (listed.holds (held.map fun finding => .findings (.posted finding))) := by
        have hfree : ∀ payload ∈ held.map fun finding => EventPayload.findings (.posted finding),
            AlwaysTaken log payload := by
          intro payload hmem
          obtain ⟨finding, -, rfl⟩ := List.mem_map.mp hmem
          exact ⟨fun _ _ => rfl, by simp, fun _ => rfl, fun _ => rfl⟩
        have hall : (held.map fun finding => EventPayload.findings (.posted finding)).filter gives =
            held.map fun finding => .findings (.posted finding) := by
          rw [List.filter_eq_self]
          intro payload hmem
          obtain ⟨finding, -, rfl⟩ := List.mem_map.mp hmem
          rfl
        have hposts := h.recordAll log hfree
        rwa [hall, List.foldl_map] at hposts
      have hrest := ih hposted hok
      rw [List.flatMap_cons, List.map_append, hheld, ← Listed.holds_holds]
      exact hrest

theorem recordBaseline (h : Lists events listed) (baseline : BirthBaseline) :
    Lists (Yunta.recordBaseline log events baseline) (listed.holds (baselineFacts baseline)) := by
  have hkind : ∀ payload ∈ baselineFacts baseline,
      (∃ p, payload = .run (.baselineCaptured p)) ∨ ∃ p, payload = .run (.baselineHeld p) := by
    intro payload hmem
    rcases List.mem_cons.mp hmem with rfl | hmem
    · exact .inl ⟨_, rfl⟩
    · obtain ⟨held, -, rfl⟩ := List.mem_map.mp hmem
      exact .inr ⟨held, rfl⟩
  have hall : (baselineFacts baseline).filter gives = baselineFacts baseline := by
    rw [List.filter_eq_self]
    intro payload hmem
    rcases hkind payload hmem with ⟨p, rfl⟩ | ⟨p, rfl⟩ <;> rfl
  have hfree : ∀ payload ∈ baselineFacts baseline, AlwaysTaken log payload := by
    intro payload hmem
    rcases hkind payload hmem with ⟨p, rfl⟩ | ⟨p, rfl⟩
    · exact ⟨fun _ _ => rfl, by simp, fun _ => rfl, fun _ => rfl⟩
    · exact ⟨fun _ _ => rfl, by simp, fun _ => rfl, fun _ => rfl⟩
  have hfacts := h.recordAll log hfree
  rwa [hall] at hfacts

theorem inheritFacts {params : CreateRunParams} (h : Lists events listed)
    (hok : (Yunta.inheritFacts reads log params events).2 = .ok ()) :
    Lists (Yunta.inheritFacts reads log params events).1
      (listed.holds (inheritedPayloads reads params)) := by
  unfold Yunta.inheritFacts at hok ⊢
  generalize hheld : (if params.promotedFrom.isSome then
    holdInheritedFindings reads log events params.artifacts else (events, .ok ())) = held at hok ⊢
  cases hend : held.2 with
  | error report => simp only [hend] at hok; cases hok
  | ok _ =>
    have hfindings : Lists held.1 (listed.holds
        ((inheritedFindings reads params).map fun finding => .findings (.posted finding))) := by
      rw [← hheld] at hend ⊢
      unfold inheritedFindings
      by_cases hpromoted : params.promotedFrom.isSome = true
      · rw [if_pos hpromoted] at hend ⊢
        rw [if_pos hpromoted]
        exact h.postFindings log reads hend
      · rw [if_neg hpromoted, if_neg hpromoted, List.map_nil, Listed.holds_nil]
        exact h
    unfold inheritedPayloads
    cases hbaseline : params.baseline with
    | none => simpa [hend] using hfindings
    | some baseline =>
      have hrecorded := hfindings.recordBaseline log baseline
      rw [Listed.holds_holds] at hrecorded
      simpa [hend] using hrecorded

end Lists

theorem birthRegistrations_length {reads : BirthReads} {artifacts : List BirthArtifact}
    {documents : List (Option BirthDocument)}
    (h : birthRegistrations reads artifacts = .ok documents) :
    documents.length = artifacts.length := by
  induction artifacts generalizing documents with
  | nil => cases h; rfl
  | cons artifact rest ih =>
    rw [birthRegistrations] at h
    cases hfirst : birthRegistration reads artifact with
    | error report => rw [hfirst] at h; cases h
    | ok birth =>
      cases hrest : birthRegistrations reads rest with
      | error report => rw [hfirst, hrest] at h; cases h
      | ok births =>
        rw [hfirst, hrest] at h
        obtain rfl := Except.ok.inj h
        rw [List.length_cons, List.length_cons, ih hrest]

/-- A log that closes no run leaves it open. -/
theorem not_finished {events : List StoredEvent} (h : Accepted events)
    (hopen : ∀ event ∈ events, ∀ p, event.payload ≠ some (.run (.finished p))) :
    (derive events).run.finished = none := by
  induction events using List.reverseRecOn with
  | nil => rfl
  | append_singleton events event ih =>
    have hbefore := ih (accepted_of_append h) fun other hmem =>
      hopen other (List.mem_append_left _ hmem)
    obtain ⟨hrefuse, hderive⟩ := derive_snoc h
    rw [hderive, RunState.taken_run_ledger hrefuse]
    cases hp : event.payload with
    | none => exact hbefore
    | some payload =>
      cases payload with
      | run e =>
        cases e with
        | finished p => exact absurd hp (hopen event (by simp) p)
        | resumed p =>
          show ((derive events).run.resumed p event.meta_).finished = none
          unfold RunLedger.resumed
          cases p.checkout <;> exact hbefore
        | _ => exact hbefore
      | _ => exact hbefore

/-! ## What is listed -/

/-- What a task's entry lists is the task, and where it is moved. -/
theorem mem_entry {listed : Listed} {carried : OrdMap TaskId CommitSha} {task : Task}
    {fact : BirthFact} (h : fact ∈ listed.entry carried task) :
    fact = .task task.id ∨ ∃ status, fact = .moved task.id status := by
  rcases List.mem_cons.mp h with h | h
  · exact .inl h
  · generalize followOf task listed.tasks[task.id]? (standing listed.facts task.id)
      carried[task.id]? = follow at h
    rcases follow with _ | _ | commit
    · cases h
    · exact .inr ⟨_, List.mem_singleton.mp h⟩
    · exact .inr ⟨_, List.mem_singleton.mp h⟩

section
variable (reads : BirthReads) (listed : Listed) (birth : BirthArtifact × Option BirthDocument)

theorem holds_mem_artifact (payload : EventPayload) :
    .holds payload ∈ (listed.artifact reads birth).facts ↔
      .holds payload ∈ listed.facts ∨ payload = acceptance reads birth.1 := by
  obtain ⟨artifact, _ | birth⟩ := birth
  · simp [Listed.artifact, Listed.holds]
  · have hnone : .holds payload ∉ birth.document.tasks.flatMap
        ((listed.holds [acceptance reads artifact]).entry birth.provenance.carried) := by
      intro hmem
      obtain ⟨task, -, hmem⟩ := List.mem_flatMap.mp hmem
      rcases mem_entry hmem with h | ⟨status, h⟩ <;> cases h
    simp only [Listed.artifact, Listed.document, Option.elim_some, List.mem_append, hnone, or_false]
    simp [Listed.holds]

theorem task_mem_artifact (id : TaskId) :
    .task id ∈ (listed.artifact reads birth).facts ↔
      .task id ∈ listed.facts ∨ id ∈ (tasksOf birth.2).map (·.id) := by
  obtain ⟨artifact, _ | birth⟩ := birth
  · simp [Listed.artifact, Listed.holds, tasksOf]
  · have htasks : .task id ∈ birth.document.tasks.flatMap
        ((listed.holds [acceptance reads artifact]).entry birth.provenance.carried) ↔
        id ∈ birth.document.tasks.map (·.id) := by
      rw [List.mem_flatMap, List.mem_map]
      refine exists_congr fun task => and_congr_right fun _ => ⟨fun hmem => ?_, ?_⟩
      · rcases mem_entry hmem with h | ⟨status, h⟩
        · exact (BirthFact.task.inj h).symm
        · cases h
      · rintro rfl
        exact List.mem_cons_self
    simp only [Listed.artifact, Listed.document, Option.elim_some, List.mem_append, htasks]
    simp [Listed.holds, tasksOf]

end

theorem holds_mem_artifacts (reads : BirthReads) (births : List (BirthArtifact × Option BirthDocument))
    (listed : Listed) (payload : EventPayload) :
    .holds payload ∈ (births.foldl (Listed.artifact reads) listed).facts ↔
      .holds payload ∈ listed.facts ∨ payload ∈ births.map fun birth => acceptance reads birth.1 := by
  induction births generalizing listed with
  | nil => simp
  | cons birth births ih =>
    rw [List.foldl_cons, ih, holds_mem_artifact, List.map_cons, List.mem_cons, or_assoc]

theorem task_mem_artifacts (reads : BirthReads) (births : List (BirthArtifact × Option BirthDocument))
    (listed : Listed) (id : TaskId) :
    .task id ∈ (births.foldl (Listed.artifact reads) listed).facts ↔
      .task id ∈ listed.facts ∨ id ∈ (births.flatMap fun birth => tasksOf birth.2).map (·.id) := by
  induction births generalizing listed with
  | nil => simp
  | cons birth births ih =>
    rw [List.foldl_cons, ih, task_mem_artifact, List.flatMap_cons, List.map_append, List.mem_append,
      or_assoc]

/-- The tasks listed are those of the birth's documents. -/
theorem task_mem_facts (reads : BirthReads) (params : CreateRunParams) (id : TaskId) :
    .task id ∈ birthFacts reads params ↔ id ∈ (birthTasks reads params).map (·.id) := by
  unfold birthFacts Listed.holds birthTasks
  rw [List.mem_append, task_mem_artifacts]
  simp

section Cuts

variable {reads : BirthReads} {log : RunLog} {params : CreateRunParams}

/-- **The log of a whole birth** reads as what its documents list. -/
theorem createRun_lists (h : (createRun reads log params).2 = .ok ()) :
    Lists (birthLog reads log params) (((birthPairs reads params).foldl (Listed.artifact reads)
      {}).holds (inheritedPayloads reads params)) ∧
    (birthPairs reads params).map (·.1) = params.artifacts := by
  unfold birthLog birthPairs
  unfold createRun at h ⊢
  cases hmode : checkMode params.modes params.created.mode with
  | error report => rw [hmode] at h; cases h
  | ok _ =>
    cases hdocuments : birthRegistrations reads params.artifacts with
    | error report => rw [hmode, hdocuments] at h; cases h
    | ok documents =>
      simp only [hmode, hdocuments] at h ⊢
      have hlength := birthRegistrations_length hdocuments
      have hcreated : Lists (log.record [] none (.run (.created params.created))) {} :=
        ⟨by simp [RunLog.record], rfl, by simp [RunLog.record], rfl, rfl⟩
      exact ⟨(hcreated.artifacts log reads _).inheritFacts log reads h,
        List.map_fst_zip (by omega)⟩

/-- What is listed as held is what the birth owes its run. -/
theorem holds_mem_facts (h : (createRun reads log params).2 = .ok ()) (payload : EventPayload) :
    .holds payload ∈ birthFacts reads params ↔ payload ∈ due reads params := by
  unfold birthFacts Listed.holds due
  have hpairs : (birthPairs reads params).map (fun birth => acceptance reads birth.1) =
      params.artifacts.map (acceptance reads) := by
    rw [← (createRun_lists h).2, List.map_map]
    rfl
  rw [List.mem_append, holds_mem_artifacts, hpairs, List.mem_append]
  simp

theorem gives_of_due {payload : EventPayload} (hdue : payload ∈ due reads params) :
    gives payload = true := by
  rcases List.mem_append.mp hdue with hmem | hmem
  · obtain ⟨artifact, -, rfl⟩ := List.mem_map.mp hmem
    rfl
  · rcases List.mem_append.mp hmem with hmem | hmem
    · obtain ⟨finding, -, rfl⟩ := List.mem_map.mp hmem
      rfl
    · cases hbaseline : params.baseline with
      | none => rw [hbaseline] at hmem; cases hmem
      | some baseline =>
        rw [hbaseline] at hmem
        rcases List.mem_cons.mp hmem with rfl | hmem
        · rfl
        · obtain ⟨held, -, rfl⟩ := List.mem_map.mp hmem
          rfl

/-- The facts of a whole log are those the crash kept, and those it cut off. -/
theorem birthCut_facts (h : (createRun reads log params).2 = .ok ()) (k : Nat) :
    (birthCut reads log params k).filterMap BirthFact.of =
      (birthFacts reads params).take (written reads log params k) := by
  have hprefix : (birthCut reads log params k).filterMap BirthFact.of <+:
      (birthLog reads log params).filterMap BirthFact.of :=
    (List.take_prefix k _).filterMap _
  rw [(createRun_lists h).1.facts] at hprefix
  exact List.prefix_iff_eq_take.mp hprefix

theorem birthCut_accepted (h : (createRun reads log params).2 = .ok ()) (k : Nat) :
    Accepted (birthCut reads log params k) := by
  have hwhole := (createRun_lists h).1.accepted
  rw [← List.take_append_drop k (birthLog reads log params)] at hwhole
  exact accepted_of_append hwhole

/-- A cut run is driven as soon as it has a log. -/
theorem start_birthCut (h : (createRun reads log params).2 = .ok ()) (k : Nat) :
    start (birthCut reads log params k) = .driven ↔ k ≠ 0 := by
  have hopen : (derive (birthCut reads log params k)).run.finished = none :=
    not_finished (birthCut_accepted h k) fun event hmem =>
      (createRun_lists h).1.open_ event (List.mem_of_mem_take hmem)
  have hsome : birthLog reads log params ≠ [] := (createRun_lists h).1.began
  unfold start
  cases k with
  | zero => simp [birthCut]
  | succ k =>
    have hcut : (birthCut reads log params (k + 1)).isEmpty = false := by
      simp [birthCut, hsome]
    simp [hcut, hopen]

theorem of_eq_holds {event : StoredEvent} {payload : EventPayload} :
    BirthFact.of event = some (.holds payload) ↔
      event.payload = some payload ∧ gives payload = true := by
  unfold BirthFact.of
  split
  · next p hp =>
    refine ⟨(fun h => by cases h), ?_⟩
    rintro ⟨h, hgives⟩
    obtain rfl := Option.some.inj (hp.symm.trans h)
    cases hgives
  · next p hp =>
    refine ⟨(fun h => by cases h), ?_⟩
    rintro ⟨h, hgives⟩
    obtain rfl := Option.some.inj (hp.symm.trans h)
    cases hgives
  · next other _ _ hp =>
    rw [hp]
    by_cases hgives : gives other = true
    · rw [if_pos hgives]
      constructor
      · intro h
        obtain rfl : other = payload := by simpa using h
        exact ⟨rfl, hgives⟩
      · rintro ⟨h, -⟩
        rw [Option.some.inj h]
    · rw [if_neg hgives]
      refine ⟨(fun h => by cases h), ?_⟩
      rintro ⟨h, hother⟩
      exact absurd hother (Option.some.inj h ▸ hgives)
  · next hp => simp [hp]

/-- What a log states of what a run is born holding is what its facts do. -/
theorem states_iff {events : List StoredEvent} {payload : EventPayload}
    (hgives : gives payload = true) :
    States events payload ↔ .holds payload ∈ events.filterMap BirthFact.of := by
  simp only [States, List.mem_filterMap, of_eq_holds, hgives, and_true]

/-- A run holds what its cut birth gave it exactly when what the crash cut off repeats that. -/
theorem holdsBirth_iff (h : (createRun reads log params).2 = .ok ()) (k : Nat) :
    HoldsBirth reads log params (birthCut reads log params k) ↔
      Repeats (birthFacts reads params) (written reads log params k) := by
  have hcut := birthCut_facts h k
  have hstood : ∀ id, (derive (birthCut reads log params k)).tasks.status id =
      standing ((birthFacts reads params).take (written reads log params k)) id :=
    fun id => hcut ▸ status_facts (birthCut_accepted h k) id
  have hends : ∀ id, (derive (birthLog reads log params)).tasks.status id =
      standing (birthFacts reads params) id :=
    fun id => (status_facts (createRun_lists h).1.accepted id).trans
      (congrArg (standing · id) (createRun_lists h).1.facts)
  generalize written reads log params k = n at hcut hstood ⊢
  have hsplit : ∀ fact, fact ∈ birthFacts reads params ↔ fact ∈ (birthFacts reads params).take n ∨
      fact ∈ (birthFacts reads params).drop n := fun fact => by
    rw [← List.mem_append, List.take_append_drop]
  have hmoves : ∀ id stood, standing ((birthFacts reads params).take n) id = some stood →
      standing (birthFacts reads params) id =
        some ((lastMove id ((birthFacts reads params).drop n)).getD stood) := fun id stood htake => by
    rw [← foldl_standing, ← htake, ← standing_append, List.take_append_drop]
  constructor
  · intro hholds
    have htasks : ∀ id, .task id ∈ birthFacts reads params → ∃ status,
        standing ((birthFacts reads params).take n) id = some status ∧
        standing (birthFacts reads params) id = some status := fun id hid => by
      obtain ⟨task, htask, rfl⟩ := List.mem_map.mp ((task_mem_facts reads params id).mp hid)
      obtain ⟨status, hkept, hwhole⟩ := hholds.tasks task htask
      exact ⟨status, (hstood _).symm.trans hkept, (hends _).symm.trans hwhole⟩
    exact {
      held := fun payload hmem => by
        have hdue := (holds_mem_facts h payload).mp ((hsplit _).mpr (.inr hmem))
        rw [← hcut, ← states_iff (gives_of_due hdue)]
        exact hholds.given payload hdue
      tasks := fun id hmem => by
        obtain ⟨status, hkept, -⟩ := htasks id ((hsplit _).mpr (.inr hmem))
        rw [← standing_isSome, hkept]
        rfl
      moved := fun id status hid hlast => by
        obtain ⟨stood, hkept, hwhole⟩ := htasks id hid
        have hmoved := hmoves id stood hkept
        rw [hlast, hwhole] at hmoved
        rw [hkept, hmoved, Option.getD_some] }
  · intro hrepeats
    exact {
      given := fun payload hdue => by
        rw [states_iff (gives_of_due hdue), hcut]
        rcases (hsplit _).mp ((holds_mem_facts h payload).mpr hdue) with hmem | hmem
        · exact hmem
        · exact hrepeats.held payload hmem
      tasks := fun task htask => by
        have hid : .task task.id ∈ birthFacts reads params :=
          (task_mem_facts reads params task.id).mpr (List.mem_map_of_mem htask)
        have hkept : .task task.id ∈ (birthFacts reads params).take n :=
          ((hsplit _).mp hid).elim (fun hmem => hmem) (hrepeats.tasks task.id)
        obtain ⟨stood, htake⟩ := Option.isSome_iff_exists.mp (standing_isSome.mpr hkept)
        refine ⟨stood, (hstood _).trans htake, (hends _).trans ?_⟩
        rw [hmoves _ _ htake]
        cases hlast : lastMove task.id ((birthFacts reads params).drop n) with
        | none => rfl
        | some status =>
          have hsame := hrepeats.moved task.id status hid hlast
          rw [htake] at hsame
          exact hsame.symm }

end Cuts

/-! ## When a cut run holds everything -/

/-- **A cut birth.**  A run whose birth a crash cut after `k` appends holds everything it was born
    with, whichever invocation drives it, exactly when the crash left it no log at all, or what the
    birth lists past the cut repeats what it lists before it. -/
theorem holdsAtEveryEntry_iff (reads : BirthReads) (log : RunLog) (params : CreateRunParams)
    (h : (createRun reads log params).2 = .ok ()) (k : Nat) :
    HoldsAtEveryEntry reads log params k ↔
      k = 0 ∨ Repeats (birthFacts reads params) (written reads log params k) := by
  rw [← holdsBirth_iff h]
  constructor
  · intro hholds
    by_cases hk : k = 0
    · exact .inl hk
    · have hdriven : Arrival.drives (fun _ => birthCut reads log params k) "" .resume = true := by
        simpa [Arrival.drives] using (start_birthCut h k).mpr hk
      exact .inr (hholds (fun _ => _) "" .resume rfl hdriven)
  · rintro hcase logs run entry hlogs hdrives
    have hdriven : start (logs run) = .driven := by
      cases entry with
      | resume => simpa [Arrival.drives] using hdrives
      | reentered parent node =>
        rw [Arrival.drives, Bool.and_eq_true] at hdrives
        simpa using hdrives.2
    rw [hlogs, start_birthCut h] at hdriven
    rw [hlogs]
    exact hcase.resolve_left hdriven

/-- A birth with one opaque artifact, and readers that find nothing in it. -/
def oneReport : CreateRunParams where
  created := { manifestHash := "m", mode := "default" }
  artifacts := [⟨.named "report", .input "report", "text"⟩]

def plainReads : BirthReads where
  hash := id
  tasks := fun _ => .error "not a tasks document"
  findings := fun _ => .error "not a findings document"
  carriedInto := fun _ _ => .ok ∅
  derived := fun _ _ => []

/-- The same report handed over twice: what a crash before the second acceptance cuts off repeats
    the first. -/
def sameTwice : CreateRunParams :=
  { oneReport with artifacts := oneReport.artifacts ++ oneReport.artifacts }

theorem holdsAtEveryEntry_sameTwice : HoldsAtEveryEntry plainReads {} sameTwice 2 := by
  have hsame : (birthFacts plainReads sameTwice).drop (written plainReads {} sameTwice 2) =
      (birthFacts plainReads sameTwice).take (written plainReads {} sameTwice 2) := by
    decide +kernel
  have htasks : birthTasks plainReads sameTwice = [] := rfl
  have htask : ∀ id, .task id ∉ birthFacts plainReads sameTwice := fun id hmem => by
    simpa [htasks] using (task_mem_facts plainReads sameTwice id).mp hmem
  refine (holdsAtEveryEntry_iff plainReads {} sameTwice rfl 2).mpr (.inr ⟨?_, ?_, ?_⟩)
  · exact fun payload hmem => hsame ▸ hmem
  · exact fun id hmem => hsame ▸ hmem
  · exact fun id status hid => absurd hid (htask id)

/-- A birth cut right after `run_created`: a resume drives the run, and so does a parent whose log
    holds its link open, and its artifact was never accepted. -/
theorem not_holdsAtEveryEntry :
    birthRegistrations plainReads oneReport.artifacts = .ok [none] ∧
    start (birthCut plainReads {} oneReport 1) = .driven ∧
    resumedChild (derive [⟨"", 1, 0, some "build", .known (.children (.created ⟨"child", "w"⟩))⟩])
      "build" (fun _ => birthCut plainReads {} oneReport 1) = some "child" ∧
    ¬ HoldsAtEveryEntry plainReads {} oneReport 1 := by
  refine ⟨rfl, by decide +kernel, by decide +kernel, fun hholds => ?_⟩
  have hcut := hholds (fun _ => birthCut plainReads {} oneReport 1) "child" .resume rfl
    (by decide +kernel)
  obtain ⟨event, hmem, hp⟩ := hcut.given (acceptance plainReads ⟨.named "report", .input "report",
    "text"⟩) (by decide +kernel)
  obtain rfl := List.mem_singleton.mp hmem
  exact absurd hp (by decide +kernel)

end Yunta
