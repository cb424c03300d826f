/-
  Whether a loop works the plan the run registered.

  A tasks document is accepted when a session hands it over, and its tasks are registered when the
  node that produced it closes.  A loop takes the document `latest` answers, and asks only that the
  run registered the *ids* of its tasks.

  1. **Runs** — `step`: documents are accepted, closes register what their node holds, whole or cut
     by a crash, and loops start and stop anywhere between.

  2. **The property** — `WorksRegistered`: what a loop dispatches is on record as its document
     writes it, and the document's producer closed on it.

  3. **When it holds** — of every run that `KeepsPlan`: a loop starts on a document whose producer
     has closed on it, and no close registers a task of a document in force otherwise
     (`works_registered`).
-/
import Yunta.Artifacts.Latest
import Yunta.Lib.Machine
import Yunta.Loop.Batch
import Yunta.Tasks.Judged
import Yunta.Tasks.Registration

set_option linter.unusedVariables false

namespace Yunta.Registered

open Loop Machine

/-! ## Runs -/

/-- A tasks document the run holds: its reader took it, so each id is declared once. -/
structure Declared where
  document : TasksFile
  declaredOnce : document.DeclaredOnce

/-- A loop at work: the acceptance it took its document from, and the document. -/
structure Work where
  ref : ArtifactRef
  plan : Declared

/-- The log, the producers that handed a document over and have not closed on it, and the loops at
    work. -/
structure Live where
  log : List StoredEvent
  handed : List (Option NodeId)
  loops : List Work

/-- A run before its first event. -/
def born : Live := ⟨[], [], []⟩

inductive Act where
  /-- A document enters the run: a session hands it over, or the run is born holding it. -/
  | accept (producer : Option NodeId) (hash : ContentHash) (origin : ArtifactOrigin)
  /-- The producer closes on the document it holds. -/
  | close (producer : Option NodeId) (provenance : Provenance)
  /-- A crash leaves the first `kept` events of that close. -/
  | cut (producer : Option NodeId) (provenance : Provenance) (kept : Nat)
  | start
  /-- The loop at this place ends, or a crash ends it. -/
  | stop (place : Nat)
  /-- Any other event of the run. -/
  | event (node : Option NodeId) (payload : EventPayload)

/-- Whether an event neither registers a task nor accepts a tasks document. -/
def quiet : EventPayload → Bool
  | .tasks (.registered _) => false
  | .artifacts (.accepted p) => p.artifact ≠ .interpreted .tasks
  | .artifacts (.written p) => legacyIdentity p ≠ .interpreted .tasks
  | _ => true

/-- `document` states no task the run never registered. -/
def registeredHere (document : TasksFile) (state : RunState) : Bool :=
  document.tasks.all fun task => state.tasks.contains task.id

section
variable (docs : ContentHash → Option Declared) (runLog : RunLog)

/-- The tasks document a producer holds. -/
def documentOf (log : List StoredEvent) (producer : Option NodeId) : Option Declared :=
  (ArtifactLedger.of log).current[((producer, .interpreted .tasks) : Held)]?.bind fun ref =>
    docs ref.contentHash

def step (live : Live) : Act → Option Live
  | .accept producer hash origin =>
    if (docs hash).isSome then
      some { live with
        log := runLog.record live.log producer
          (.artifacts (.accepted ⟨.interpreted .tasks, hash, origin⟩))
        handed := live.handed ++ [producer] }
    else none
  | .close producer provenance =>
    (documentOf docs live.log producer).map fun held =>
      { live with
        log := register runLog live.log producer held.document provenance
        handed := live.handed.filter (· ≠ producer) }
  | .cut producer provenance kept =>
    (documentOf docs live.log producer).map fun held =>
      { live with log := registerCut runLog live.log producer held.document provenance kept }
  | .start =>
    (latest live.log .tasks).bind fun ref => (docs ref.contentHash).bind fun plan =>
      if registeredHere plan.document (derive live.log) then
        some { live with loops := live.loops ++ [⟨ref, plan⟩] }
      else none
  | .stop place => some { live with loops := live.loops.eraseIdx place }
  | .event node payload =>
    if quiet payload then some { live with log := runLog.record live.log node payload } else none

/-! ## The property -/

/-- The producer of `ref` closed on its document: behind the acceptance, its close registered each
    task as the document writes it. -/
def ClosedOn (log : List StoredEvent) (ref : ArtifactRef) (document : TasksFile) : Prop :=
  ∀ task ∈ document.tasks, ∃ event ∈ log, ref.seq < event.seq ∧ event.nodeId = ref.producer ∧
    event.payload = some (.tasks (.registered (registrationOf task)))

/-- What a loop selects over, when it does: the commands and the spec that hold its tasks, the
    departures accepted by then, and its `concurrency:`. -/
structure Selecting where
  held : List String
  spec : Option SpecFile
  ledger : TaskLedger
  concurrency : Nat

/-- The tasks a loop dispatches, each as the run judges it. -/
def dispatched (selects : ScopeGlob → String → Bool) (log : List StoredEvent) (work : Work)
    (how : Selecting) : List Task :=
  selectBatch selects (judgedPlan work.plan.document how.held how.spec how.ledger) (derive log)
    how.concurrency

/-- Two documents that cut the tasks they share alike. -/
def Agrees (a b : TasksFile) : Prop :=
  ∀ task ∈ a.tasks, ∀ other ∈ b.tasks, task.id = other.id → Identity.of task = Identity.of other

instance (a b : TasksFile) : Decidable (Agrees a b) :=
  inferInstanceAs (Decidable (∀ task ∈ a.tasks, ∀ other ∈ b.tasks, _ → _))

/-- The document a loop would start on, when its producer has closed on it. -/
def standing (live : Live) : Option Declared :=
  ((latest live.log .tasks).filter fun ref => ref.producer ∉ live.handed).bind fun ref =>
    docs ref.contentHash

/-- The documents in force: those loops work, and the one the next loop would start on. -/
def inForce (live : Live) : List Declared :=
  live.loops.map (·.plan) ++ (standing docs live).toList

/-- **What keeps a loop on the registered plan**: a close, whole or cut, registers no task of a
    document in force otherwise than that document does, and a loop starts on a document its
    producer has closed on. -/
def KeepsPlan (live : Live) : Act → Prop
  | .close producer _ | .cut producer _ _ => ∀ held ∈ documentOf docs live.log producer,
      ∀ plan ∈ inForce docs live, Agrees held.document plan.document
  | .start => ∀ ref ∈ latest live.log .tasks, ref.producer ∉ live.handed
  | _ => True

instance (live : Live) (act : Act) : Decidable (KeepsPlan docs live act) := by
  cases act <;> unfold KeepsPlan <;> infer_instance

/-! ## What a log says of the acceptances -/

theorem acceptances_append (log more : List StoredEvent) (kind : ArtifactKind) :
    acceptances (log ++ more) kind = acceptances log kind ++ acceptances more kind := by
  simp [acceptances]

theorem latest_eq (log : List StoredEvent) (kind : ArtifactKind) :
    latest log kind = (Joined.readback ArtifactRef.held (acceptances log kind)).getLast? := by
  rw [latest, (ArtifactLedger.of_holds log).ofKind]
  rfl

/-- Events that accept no document of a kind leave the one read last as it was. -/
theorem latest_append {log more : List StoredEvent} {kind : ArtifactKind}
    (h : acceptances more kind = []) : latest (log ++ more) kind = latest log kind := by
  rw [latest_eq, latest_eq, acceptances_append, h, List.append_nil]

/-- The document read last is the one its producer holds. -/
theorem latest_current {log : List StoredEvent} {ref : ArtifactRef}
    (h : latest log .tasks = some ref) :
    (ArtifactLedger.of log).current[((ref.producer, .interpreted .tasks) : Held)]? = some ref ∧
      ref ∈ acceptances log .tasks := by
  have hmem : ref ∈ (ArtifactLedger.of log).ofKind .tasks := List.mem_of_getLast? h
  obtain ⟨hevery, hkind⟩ := List.mem_filter.mp hmem
  have hartifact : ref.artifact = .interpreted .tasks := of_decide_eq_true hkind
  obtain ⟨held, -, hcurrent⟩ := List.mem_filterMap.mp hevery
  have hlast := hcurrent
  rw [(ArtifactLedger.of_holds log).current] at hlast
  obtain ⟨hstated, hheld⟩ := Joined.lastOf_key _ hlast
  constructor
  · rw [← hartifact]
    show (ArtifactLedger.of log).current[ref.held]? = some ref
    rw [hheld]
    exact hcurrent
  · exact List.mem_filter.mpr ⟨hstated, hkind⟩

theorem documentOf_latest {log : List StoredEvent} {ref : ArtifactRef}
    (h : latest log .tasks = some ref) :
    documentOf docs log ref.producer = docs ref.contentHash := by
  rw [documentOf, (latest_current h).1, Option.bind_some]

/-- Events that accept no tasks document leave what each producer holds. -/
theorem documentOf_append {log more : List StoredEvent} (h : acceptances more .tasks = [])
    (producer : Option NodeId) :
    documentOf docs (log ++ more) producer = documentOf docs log producer := by
  have hnone : (more.filterMap stated).filter (fun ref => ref.held =
      ((producer, .interpreted .tasks) : Held)) = [] := by
    rw [List.filter_eq_nil_iff]
    intro ref href hheld
    have hartifact : ref.artifact = .interpreted .tasks :=
      congrArg Prod.snd (of_decide_eq_true hheld)
    have hmem : ref ∈ acceptances more .tasks :=
      List.mem_filter.mpr ⟨href, decide_eq_true hartifact⟩
    rw [h] at hmem
    cases hmem
  rw [documentOf, documentOf, (ArtifactLedger.of_holds _).current,
    (ArtifactLedger.of_holds _).current, List.filterMap_append, Joined.lastOf, Joined.lastOf,
    List.filter_append, hnone, List.append_nil]

/-- A document accepted is its producer's, and leaves what any other holds. -/
theorem documentOf_accept (log : List StoredEvent) (producer : Option NodeId)
    (hash : ContentHash) (origin : ArtifactOrigin) (other : Option NodeId) :
    documentOf docs (runLog.record log producer
        (.artifacts (.accepted ⟨.interpreted .tasks, hash, origin⟩))) other =
      if producer = other then docs hash else documentOf docs log other := by
  rw [documentOf, documentOf, (ArtifactLedger.of_holds _).current,
    (ArtifactLedger.of_holds _).current, RunLog.record, List.filterMap_append]
  obtain ⟨ref, href⟩ : ∃ ref : ArtifactRef,
      ref = ⟨producer, .interpreted .tasks, hash, origin, log.length + 1⟩ := ⟨_, rfl⟩
  have hheld : ref.held = ((producer, .interpreted .tasks) : Held) := by rw [href]; rfl
  have hhash : ref.contentHash = hash := by rw [href]
  show (Joined.lastOf ArtifactRef.held (log.filterMap stated ++
    [⟨producer, .interpreted .tasks, hash, origin, log.length + 1⟩]) _).bind _ = _
  rw [← href, Joined.lastOf_snoc, hheld]
  by_cases hown : producer = other
  · rw [hown, if_pos rfl, if_pos rfl, Option.bind_some, hhash]
  · rw [if_neg hown, if_neg]
    exact fun heq => hown (congrArg Prod.fst heq)

/-- A quiet event states no tasks document and registers no task. -/
theorem quiet_spec {event : StoredEvent} {payload : EventPayload}
    (hp : event.payload = some payload) (h : quiet payload = true) :
    acceptances [event] .tasks = [] ∧ registeredIdentity event = none := by
  cases payload with
  | tasks e =>
    cases e with
    | registered p => cases h
    | _ => simp [acceptances, stated, registeredIdentity, hp]
  | artifacts e =>
    cases e with
    | accepted p =>
      have hother : p.artifact ≠ .interpreted .tasks := of_decide_eq_true h
      simp [acceptances, stated, registeredIdentity, hp, ArtifactRef.isOfKind, hother]
    | written p =>
      have hother : legacyIdentity p ≠ .interpreted .tasks := of_decide_eq_true h
      simp [acceptances, stated, registeredIdentity, hp, ArtifactRef.isOfKind, hother]
    | submitted p => simp [acceptances, stated, registeredIdentity, hp]
  | _ => simp [acceptances, stated, registeredIdentity, hp]

/-- Task events accept no document. -/
theorem acceptances_registers {node : Option NodeId} {tasks : List Task}
    {log more : List StoredEvent} (h : Registers node tasks log more) :
    acceptances more .tasks = [] := by
  have hnone : ∀ event ∈ more, stated event = none := by
    intro event hevent
    obtain ⟨e, he⟩ := h.taskEvents event hevent
    simp [stated, he]
  simp [acceptances, List.filterMap_eq_nil_iff.mpr hnone]

/-! ## The invariant -/

/-- A document stands on record: each task is registered last as the document writes it, behind
    the acceptance the document was read from. -/
structure Stands (log : List StoredEvent) (ref : ArtifactRef) (document : TasksFile) : Prop where
  recorded : ∀ task ∈ document.tasks,
    (priorRegistrations log)[task.id]? = some (Identity.of task)
  closed : ClosedOn log ref document

theorem ClosedOn.append {log : List StoredEvent} {ref : ArtifactRef} {document : TasksFile}
    (h : ClosedOn log ref document) (more : List StoredEvent) :
    ClosedOn (log ++ more) ref document := by
  intro task htask
  obtain ⟨event, hevent, hbehind⟩ := h task htask
  exact ⟨event, List.mem_append_left _ hevent, hbehind⟩

/-- An event that registers no task leaves a document on record. -/
theorem Stands.quiet {log : List StoredEvent} {ref : ArtifactRef} {document : TasksFile}
    (h : Stands log ref document) {event : StoredEvent} (hq : registeredIdentity event = none) :
    Stands (log ++ [event]) ref document := by
  refine ⟨?_, h.closed.append _⟩
  intro task htask
  rw [priorRegistrations_append, hq]
  exact h.recorded task htask

/-- **Registering a document that agrees** leaves a document on record. -/
theorem Stands.registers {log more : List StoredEvent} {ref : ArtifactRef}
    {document other : TasksFile} {node : Option NodeId} (h : Stands log ref document)
    (hr : Registers node other.tasks log more) (hagrees : Agrees other document) :
    Stands (log ++ more) ref document := by
  refine ⟨?_, h.closed.append _⟩
  intro task htask
  refine priorRegistrations_of_only ?_ (.inl (h.recorded task htask))
  intro event hevent identity hidentity
  obtain ⟨written, hwritten, hid, rfl⟩ := hr.own event hevent _ _ hidentity
  exact hagrees written hwritten task htask hid

/-- **A whole close** puts the document its node holds on record. -/
theorem stands_of_close {log more : List StoredEvent} {ref : ArtifactRef} {plan : Declared}
    (hr : Registers ref.producer plan.document.tasks log more)
    (hall : ∀ task ∈ plan.document.tasks, ∃ event ∈ more,
      event.payload = some (.tasks (.registered (registrationOf task))))
    (hseq : ref.seq ≤ log.length) : Stands (log ++ more) ref plan.document := by
  constructor
  · intro task htask
    obtain ⟨event, hevent, hp⟩ := hall task htask
    refine priorRegistrations_of_only ?_ (.inr ⟨event, hevent, ?_⟩)
    · intro event hevent identity hidentity
      obtain ⟨written, hwritten, hid, rfl⟩ := hr.own event hevent _ _ hidentity
      rw [TasksFile.eq_of_id plan.declaredOnce hwritten htask hid]
    · rw [registeredIdentity, hp]
      rfl
  · intro task htask
    obtain ⟨event, hevent, hp⟩ := hall task htask
    have hbehind := hr.behind event hevent
    refine ⟨event, List.mem_append_right _ hevent, ?_, hr.under event hevent, hp⟩
    omega

/-- What every run that keeps to the plan keeps: the documents in force stand on record. -/
structure Kept (live : Live) : Prop where
  behind : ∀ ref ∈ acceptances live.log .tasks, ref.seq ≤ live.log.length
  loops : ∀ work ∈ live.loops, Stands live.log work.ref work.plan.document
  next : ∀ ref ∈ latest live.log .tasks, ref.producer ∉ live.handed →
    ∀ plan ∈ docs ref.contentHash, Stands live.log ref plan.document

theorem kept_born : Kept docs born where
  behind := fun ref href => nomatch href
  loops := fun work hwork => nomatch hwork
  next := fun ref href => nomatch href

section Steps

variable {docs}
variable {live : Live}

theorem mem_inForce_standing {ref : ArtifactRef} (href : latest live.log .tasks = some ref)
    (hclosed : ref.producer ∉ live.handed) {plan : Declared}
    (hplan : docs ref.contentHash = some plan) : plan ∈ inForce docs live := by
  refine List.mem_append_right _ ?_
  rw [standing, href, Option.filter_some, if_pos (by simpa using hclosed), Option.bind_some, hplan]
  exact List.mem_cons_self

/-- The seqs of the acceptances stay within a log that grows without accepting. -/
theorem behind_append (h : Kept docs live) {more : List StoredEvent}
    (hmore : acceptances more .tasks = []) :
    ∀ ref ∈ acceptances (live.log ++ more) .tasks, ref.seq ≤ (live.log ++ more).length := by
  intro ref href
  rw [acceptances_append, hmore, List.append_nil] at href
  have hbehind := h.behind ref href
  rw [List.length_append]
  omega

/-- **A document handed over** moves no document in force: where it is the one read last, its
    producer has not closed on it. -/
theorem kept_accept (h : Kept docs live) (producer : Option NodeId) (hash : ContentHash)
    (origin : ArtifactOrigin) : Kept docs { live with
      log := runLog.record live.log producer
        (.artifacts (.accepted ⟨.interpreted .tasks, hash, origin⟩))
      handed := live.handed ++ [producer] } := by
  have hone : acceptances [runLog.next live.log producer
      (.artifacts (.accepted ⟨.interpreted .tasks, hash, origin⟩))] .tasks =
      [⟨producer, .interpreted .tasks, hash, origin, live.log.length + 1⟩] := rfl
  refine ⟨?_, ?_, ?_⟩
  · intro ref href
    rw [RunLog.record, acceptances_append, hone, List.mem_append, List.mem_singleton] at href
    rw [RunLog.record, List.length_append, List.length_singleton]
    rcases href with href | rfl
    · have hbehind := h.behind ref href
      omega
    · exact le_rfl
  · intro work hwork
    exact (h.loops work hwork).quiet rfl
  · intro ref href hopen plan hplan
    rw [RunLog.record, latest_eq, acceptances_append, hone] at href
    rcases Joined.readback_snoc_getLast? ArtifactRef.held (acceptances live.log .tasks)
      ⟨producer, .interpreted .tasks, hash, origin, live.log.length + 1⟩ with hnew | hold
    · rw [hnew] at href
      obtain rfl := Option.mem_some_iff.mp href
      exact absurd (List.mem_append_right _ List.mem_cons_self) hopen
    · rw [hold, ← latest_eq] at href
      have hclosed : ref.producer ∉ live.handed := fun hmem =>
        hopen (List.mem_append_left _ hmem)
      exact (h.next ref href hclosed plan hplan).quiet rfl

/-- **A close that agrees** with the documents in force leaves them on record, and puts its own
    there where that is the one read last. -/
theorem kept_close (h : Kept docs live) {producer : Option NodeId} {held : Declared}
    (hheld : documentOf docs live.log producer = some held)
    (hagrees : ∀ plan ∈ inForce docs live, Agrees held.document plan.document)
    (provenance : Provenance) : Kept docs { live with
      log := register runLog live.log producer held.document provenance
      handed := live.handed.filter (· ≠ producer) } := by
  obtain ⟨more, hmore, hr, hall⟩ :=
    register_registers runLog live.log producer held.document provenance
  have hnone := acceptances_registers hr
  rw [hmore]
  refine ⟨behind_append h hnone, ?_, ?_⟩
  · intro work hwork
    exact (h.loops work hwork).registers hr
      (hagrees _ (List.mem_append_left _ (List.mem_map_of_mem hwork)))
  · intro ref href hopen plan hplan
    rw [latest_append hnone] at href
    by_cases hown : ref.producer = producer
    · -- the document just closed on is the one read last
      subst hown
      obtain rfl : held = plan := by
        rw [documentOf_latest docs href, hplan] at hheld
        exact (Option.some.inj hheld).symm
      exact stands_of_close hr hall (h.behind ref (latest_current href).2)
    · have hclosed : ref.producer ∉ live.handed := by
        intro hmem
        exact hopen (List.mem_filter.mpr ⟨hmem, by simpa using hown⟩)
      exact (h.next ref href hclosed plan hplan).registers hr
        (hagrees plan (mem_inForce_standing href hclosed hplan))

/-- A cut close that agrees with the documents in force leaves them on record. -/
theorem kept_cut (h : Kept docs live) {producer : Option NodeId} {held : Declared}
    (hagrees : ∀ plan ∈ inForce docs live, Agrees held.document plan.document)
    (provenance : Provenance) (kept : Nat) : Kept docs { live with
      log := registerCut runLog live.log producer held.document provenance kept } := by
  obtain ⟨more, hmore, hr⟩ :=
    registerCut_registers runLog live.log producer held.document provenance kept
  have hnone := acceptances_registers hr
  rw [hmore]
  refine ⟨behind_append h hnone, ?_, ?_⟩
  · intro work hwork
    exact (h.loops work hwork).registers hr
      (hagrees _ (List.mem_append_left _ (List.mem_map_of_mem hwork)))
  · intro ref href hclosed plan hplan
    rw [latest_append hnone] at href
    exact (h.next ref href hclosed plan hplan).registers hr
      (hagrees plan (mem_inForce_standing href hclosed hplan))

theorem kept_event (h : Kept docs live) (node : Option NodeId) {payload : EventPayload}
    (hq : quiet payload = true) :
    Kept docs { live with log := runLog.record live.log node payload } := by
  obtain ⟨hnone, hreg⟩ := quiet_spec (runLog.payload_next live.log node payload) hq
  refine ⟨behind_append h hnone, ?_, ?_⟩
  · intro work hwork
    exact (h.loops work hwork).quiet hreg
  · intro ref href hclosed plan hplan
    rw [RunLog.record, latest_append hnone] at href
    exact (h.next ref href hclosed plan hplan).quiet hreg

/-- **One act of a run that keeps to the plan.** -/
theorem kept_step {act : Act} {live' : Live} (h : Kept docs live)
    (hkeeps : KeepsPlan docs live act) (htaken : step docs runLog live act = some live') :
    Kept docs live' := by
  cases act with
  | accept producer hash origin =>
    rw [step] at htaken
    split at htaken
    · cases htaken
      exact kept_accept runLog h producer hash origin
    · cases htaken
  | close producer provenance =>
    obtain ⟨held, hheld, rfl⟩ := Option.map_eq_some_iff.mp htaken
    exact kept_close runLog h hheld (hkeeps held hheld) provenance
  | cut producer provenance kept =>
    obtain ⟨held, hheld, rfl⟩ := Option.map_eq_some_iff.mp htaken
    exact kept_cut runLog h (hkeeps held hheld) provenance kept
  | start =>
    obtain ⟨ref, href, hread⟩ := Option.bind_eq_some_iff.mp htaken
    obtain ⟨plan, hplan, hregistered⟩ := Option.bind_eq_some_iff.mp hread
    split at hregistered
    · cases hregistered
      refine ⟨h.behind, ?_, h.next⟩
      intro work hwork
      rcases List.mem_append.mp hwork with hwork | hwork
      · exact h.loops work hwork
      · obtain rfl := List.mem_singleton.mp hwork
        exact h.next ref href (hkeeps ref href) plan hplan
    · cases hregistered
  | stop place =>
    cases htaken
    exact ⟨h.behind, fun work hwork => h.loops work (List.mem_of_mem_eraseIdx hwork), h.next⟩
  | event node payload =>
    rw [step] at htaken
    split at htaken
    · next hq =>
      cases htaken
      exact kept_event runLog h node hq
    · cases htaken

end Steps

/-! ## The run -/

/-- What a loop dispatches of a document on record is on record as the document writes it. -/
theorem Stands.works {log : List StoredEvent} {work : Work}
    (h : Stands log work.ref work.plan.document) (selects : ScopeGlob → String → Bool)
    (how : Selecting) {task : Task} (htask : task ∈ dispatched selects log work how) :
    ∃ written ∈ work.plan.document.tasks,
      task = judged written how.held how.spec how.ledger ∧ task.id = written.id ∧
      task.scope = written.scope ∧
      (priorRegistrations log)[task.id]? = some (Identity.of written) := by
  obtain ⟨written, hwritten, rfl⟩ := List.mem_map.mp (mem_selectBatch htask).1
  obtain ⟨criteria, hjudged⟩ := judged_eq written how.held how.spec how.ledger
  have hid : (judged written how.held how.spec how.ledger).id = written.id := by rw [hjudged]
  refine ⟨written, hwritten, rfl, hid, by rw [hjudged], ?_⟩
  rw [hid]
  exact h.recorded written hwritten

end

/-! ## Two planners -/

/-- The planner hands its document over and closes on it. -/
def planned : List Act :=
  [.accept (some "plan") "planned" .submitted, .close (some "plan") .fresh]

end Yunta.Registered
