/-
  Whether a `done` one run hands another answers for the same task.

  A run takes over another's tasks document, and starts its tasks done where the source left them
  done at a commit the receiving tree has.  The content comes from an acceptance of the source, the
  status from its task ledger, by id.

  1. **The source** — `step`: documents are accepted, closes register them, whole or cut by a
     crash, tasks move, and the run hands its documents over on one of three routes.

  2. **The property** — `AnswersFor`: every `done` the receiving run's registration states is one
     the source reached under a registration that cuts the task as the document does, at the commit
     it was reached at.

  3. **When it holds** — of every run that `KeepsIdentity`: no crash parts the registration of a
     done task from its reset, and a document is handed over with a done task only when its
     producer has closed on it and no close since cuts that task otherwise (`answers_for`).
-/
import Yunta.Loop.Built
import Yunta.Loop.Registered
import Yunta.Tasks.Crossing

set_option linter.unusedVariables false

namespace Yunta

namespace Handover

open Crossing Machine Registered

/-! ## The source -/

/-- A close of a node on its tasks document, whole or cut by a crash. -/
structure Closing where
  producer : Option NodeId
  document : TasksFile
  whole : Bool

/-- A document another run takes over, and the log it takes it over from. -/
structure Handed where
  source : List StoredEvent
  plan : Declared

/-- The log, the producers that accepted a document and have not closed on it, the closes, latest
    first, and what was handed over. -/
structure Live where
  log : List StoredEvent
  handed : List (Option NodeId)
  closings : List Closing
  handovers : List Handed

/-- A run before its first event. -/
def born : Live := ⟨[], [], [], []⟩

/-- How a document crosses to another run. -/
inductive Route where
  /-- A successor is born holding every artifact of the run it carries on. -/
  | promotion
  /-- A child is born holding the artifact of one node of its parent. -/
  | mount (node : NodeId)
  /-- A child's artifact crosses by identity alone: to its parent's node, or mounted by a
      sibling. -/
  | child

/-- The tasks documents a run hands over on a route. -/
def handedOver (log : List StoredEvent) : Route → List ArtifactRef
  | .promotion => (ArtifactLedger.of log).ofKind .tasks
  | .mount node => ((ArtifactLedger.of log).latest (.interpreted .tasks) (some node)).toList
  | .child => ((ArtifactLedger.of log).latest (.interpreted .tasks) none).toList

inductive Act where
  | accept (producer : Option NodeId) (hash : ContentHash) (origin : ArtifactOrigin)
  | close (producer : Option NodeId) (provenance : Provenance)
  | cut (producer : Option NodeId) (provenance : Provenance) (kept : Nat)
  /-- Any status change of a task the run registered. -/
  | change (node : Option NodeId) (change : TaskStatusChangedPayload)
  | handOver (route : Route)
  /-- Any other event of the run. -/
  | event (node : Option NodeId) (payload : EventPayload)

/-- Whether an event neither registers nor moves a task, and accepts no tasks document. -/
def quiet : EventPayload → Bool
  | .tasks (.statusChanged _) => false
  | payload => Registered.quiet payload

section
variable (docs : ContentHash → Option Declared) (runLog : RunLog)

def step (live : Live) : Act → Option Live
  | .accept producer hash origin =>
    if (docs hash).isSome then
      some { live with
        log := runLog.record live.log producer
          (.artifacts (.accepted ⟨.interpreted .tasks, hash, origin⟩))
        handed := live.handed ++ [producer] }
    else none
  | .close producer provenance =>
    (documentOf docs live.log producer).map fun held =>
      { live with
        log := register runLog live.log producer held.document provenance
        handed := live.handed.filter (· ≠ producer)
        closings := ⟨producer, held.document, true⟩ :: live.closings }
  | .cut producer provenance kept =>
    (documentOf docs live.log producer).map fun held =>
      { live with
        log := registerCut runLog live.log producer held.document provenance kept
        closings := ⟨producer, held.document, false⟩ :: live.closings }
  | .change node change =>
    if (derive live.log).tasks.contains change.taskId then
      some { live with log := runLog.record live.log node (.tasks (.statusChanged change)) }
    else none
  | .handOver route =>
    ((handedOver live.log route).mapM fun ref => docs ref.contentHash).map fun plans =>
      { live with handovers := live.handovers ++ plans.map fun plan => ⟨live.log, plan⟩ }
  | .event node payload =>
    if quiet payload = true ∧ Accepted (runLog.record live.log node payload) then
      some { live with log := runLog.record live.log node payload }
    else none

/-! ## The property -/

/-- **A done handed over answers for the same task**: whatever tree and log the document is
    registered in, each `done` that registration states is of a task of the document, at a commit,
    and the source last went done on it at that commit, registered as the document cuts it. -/
def AnswersFor (handed : Handed) : Prop :=
  ∀ run standing tree carried, standingOf run handed.source = .ok standing →
    carriedInto standing handed.plan.document tree = .ok carried →
    ∀ runLog receiver node, ∀ event ∈
      (register runLog receiver node handed.plan.document (.inherited carried)).drop
        receiver.length, ∀ id commit, doneOf event = some (id, commit) →
    ∃ task ∈ handed.plan.document.tasks, task.id = id ∧ commit.isSome = true ∧
      WentDone handed.source id (Identity.of task) commit

/-! ## The condition -/

/-- The documents closed on since `producer` last closed whole. -/
def closedSince (closings : List Closing) (producer : Option NodeId) : List TasksFile :=
  (closings.takeWhile fun closing => !(closing.whole && closing.producer = producer)).map
    (·.document)

/-- A document cuts `task` as it is, where it has it. -/
def CutsAlike (document : TasksFile) (task : Task) : Prop :=
  ∀ other ∈ document.tasks, other.id = task.id → Identity.of other = Identity.of task

instance (document : TasksFile) (task : Task) : Decidable (CutsAlike document task) :=
  inferInstanceAs (Decidable (∀ other ∈ document.tasks, _ → _))

/-- A crash leaves a done task registered otherwise, without the reset that goes with it. -/
def partsReset (log cut : List StoredEvent) (task : Task) : Bool :=
  (derive log).tasks.status task.id = some .done &&
    ((priorRegistrations log)[task.id]?).any (· ≠ Identity.of task) &&
    (since log cut).any (registers task.id) && !(since log cut).any (moves task.id)

/-- **What keeps a `done` on its own task**: no crash parts a registration from its reset, and a
    document crosses with a done task only where its producer has closed on it and no close since
    cuts that task otherwise. -/
def KeepsIdentity (live : Live) : Act → Prop
  | .cut producer provenance kept => ∀ held ∈ documentOf docs live.log producer,
      ∀ task ∈ held.document.tasks,
        partsReset live.log
          (registerCut runLog live.log producer held.document provenance kept) task = false
  | .handOver route => ∀ ref ∈ handedOver live.log route, ∀ plan ∈ docs ref.contentHash,
      ∀ task ∈ plan.document.tasks, (derive live.log).tasks.status task.id = some .done →
        ref.producer ∉ live.handed ∧
          ∀ other ∈ closedSince live.closings ref.producer, CutsAlike other task
  | _ => True

instance (live : Live) (act : Act) : Decidable (KeepsIdentity docs runLog live act) := by
  cases act <;> unfold KeepsIdentity <;> infer_instance

end

/-! ## What a log keeps of its done tasks -/

/-- A done task last went done under the registration the log holds of it now. -/
def Placed (log : List StoredEvent) (id : TaskId) : Prop :=
  (derive log).tasks.status id = some .done →
    ∃ identity commit, WentDone log id identity commit ∧
      (priorRegistrations log)[id]? = some identity

/-- A log replay takes whole, that registered every task it knows, and placed every done one. -/
structure Grounded (log : List StoredEvent) : Prop where
  accepted : Accepted log
  known : ∀ id, ((derive log).tasks.standing id).isSome = true →
    ((priorRegistrations log)[id]?).isSome = true
  placed : ∀ id, Placed log id

section Grounds

variable {log : List StoredEvent} (runLog : RunLog) (node : Option NodeId)

theorem grounded_nil : Grounded [] where
  accepted := rfl
  known := by
    intro id h
    rw [← TaskLedger.contains_standing] at h
    simp [derive, RunState.deriveFrom, TaskLedger.contains] at h
  placed := by
    intro id h
    simp [derive, RunState.deriveFrom, TaskLedger.status, TaskLedger.get] at h

/-- A registration leaves every task the log knew on record, and its own besides. -/
theorem known_registered (h : Grounded log) (task : Task) (id : TaskId)
    (hknown : ((derive (recordRegistered runLog node log task)).tasks.standing id).isSome = true) :
    ((priorRegistrations (recordRegistered runLog node log task))[id]?).isSome = true := by
  rw [registered_prior]
  rw [(registered_standing runLog node h.accepted task).2] at hknown
  split
  · rfl
  · next hother =>
    rw [if_neg hother] at hknown
    exact h.known id hknown

/-- A registration leaves a task placed, unless it is its own and cuts it otherwise once done. -/
theorem placed_registered (h : Grounded log) (task : Task) (id : TaskId)
    (hsame : task.id = id → (derive log).tasks.status id = some .done →
      (priorRegistrations log)[id]?.any (· ≠ Identity.of task) = false) :
    Placed (recordRegistered runLog node log task) id := by
  intro hdone
  -- the registration of a task the log has done leaves it done, and one of a new task does not
  have hstood : (derive log).tasks.status id = some .done := by
    rw [TaskLedger.status_standing, (registered_standing runLog node h.accepted task).2] at hdone
    rw [TaskLedger.status_standing]
    split at hdone
    · cases hstanding : (derive log).tasks.standing id with
      | none =>
        rw [hstanding] at hdone
        cases hdone
      | some stood =>
        rw [hstanding] at hdone
        exact hdone
    · exact hdone
  obtain ⟨identity, commit, hwent, hprior⟩ := h.placed id hstood
  refine ⟨identity, commit, hwent.snoc (fun other hother => nomatch hother), ?_⟩
  rw [registered_prior, hprior]
  split
  · next hid =>
    have hany := hsame hid hstood
    rw [hprior] at hany
    have heq : identity = Identity.of task := by simpa using hany
    rw [heq]
  · rfl

/-- A status change of a known task leaves every task placed, its own among them. -/
theorem grounded_change_of {log : List StoredEvent} (haccepted : Accepted log)
    (hknown : ∀ id, ((derive log).tasks.standing id).isSome = true →
      ((priorRegistrations log)[id]?).isSome = true)
    {change : TaskStatusChangedPayload}
    (htask : ((derive log).tasks.standing change.taskId).isSome = true)
    (hplaced : ∀ id, change.taskId ≠ id → Placed log id) :
    Grounded (runLog.record log node (.tasks (.statusChanged change))) := by
  obtain ⟨hacc, hmoved⟩ := moved_standing runLog node haccepted htask
  have hprior : priorRegistrations (runLog.record log node (.tasks (.statusChanged change))) =
      priorRegistrations log := priorRegistrations_append log _
  refine ⟨hacc, ?_, ?_⟩
  · intro id hsome
    rw [hprior]
    rw [hmoved] at hsome
    split at hsome
    · next hid =>
      rw [← hid]
      exact hknown _ htask
    · exact hknown id hsome
  · intro id hdone
    rw [TaskLedger.status_standing, hmoved] at hdone
    rw [hprior]
    by_cases hid : change.taskId = id
    · -- the task that moved to done does so under the registration it has now
      subst hid
      obtain ⟨stood, hstood⟩ := Option.isSome_iff_exists.mp htask
      rw [if_pos rfl, hstood] at hdone
      have hnew : change.newStatus = .done := Option.some.inj hdone
      obtain ⟨identity, hidentity⟩ := Option.isSome_iff_exists.mp (hknown _ htask)
      refine ⟨identity, change.commit, wentDone_snoc ?_ hidentity, hidentity⟩
      simp [doneOf, hnew]
    · rw [if_neg hid, ← TaskLedger.status_standing] at hdone
      obtain ⟨identity, commit, hwent, hidentity⟩ := hplaced id hid hdone
      refine ⟨identity, commit, hwent.snoc ?_, hidentity⟩
      intro other hother
      simp only [doneOf, RunLog.payload_next] at hother
      split at hother
      · cases hother
        exact hid rfl
      · cases hother

theorem Grounded.change (h : Grounded log) {change : TaskStatusChangedPayload}
    (hknown : (derive log).tasks.contains change.taskId = true) :
    Grounded (runLog.record log node (.tasks (.statusChanged change))) := by
  rw [TaskLedger.contains_standing] at hknown
  exact grounded_change_of runLog node h.accepted h.known hknown fun id _ => h.placed id

/-- The registration of a task it does not cut otherwise once done. -/
theorem Grounded.registered (h : Grounded log) (task : Task)
    (hsame : (derive log).tasks.status task.id = some .done →
      (priorRegistrations log)[task.id]?.any (· ≠ Identity.of task) = false) :
    Grounded (recordRegistered runLog node log task) where
  accepted := (registered_standing runLog node h.accepted task).1
  known := known_registered runLog node h task
  placed := by
    intro id
    refine placed_registered runLog node h task id ?_
    rintro rfl
    exact hsame

/-- **One entry of a registration**: a task cut otherwise is reset, and one carried goes done
    under the registration just written. -/
theorem Grounded.planned (h : Grounded log) {planned : Planned}
    {carried : Option CommitSha}
    (hfollow : planned.follow = followOf planned.task (priorRegistrations log)[planned.task.id]?
      ((derive log).tasks.status planned.task.id) carried) :
    Grounded (recordPlanned runLog node log planned) := by
  obtain ⟨task, follow⟩ := planned
  have hstanding := (registered_standing runLog node h.accepted task).2
  have hsome : ((derive (recordRegistered runLog node log task)).tasks.standing task.id).isSome =
      true := by
    rw [hstanding, if_pos rfl]
    rfl
  have hothers : ∀ id, task.id ≠ id → Placed (recordRegistered runLog node log task) id :=
    fun id hid => placed_registered runLog node h task id fun heq => absurd heq hid
  have hchange : ∀ change : TaskStatusChangedPayload, change.taskId = task.id →
      Grounded (runLog.record (recordRegistered runLog node log task) node
        (.tasks (.statusChanged change))) := by
    intro change htask
    refine grounded_change_of runLog node (registered_standing runLog node h.accepted task).1
      (known_registered runLog node h task) ?_ ?_
    · rw [htask]
      exact hsome
    · intro id hid
      exact hothers id (htask ▸ hid)
  rcases follow with _ | _ | commit
  · refine h.registered runLog node task fun _ => ?_
    -- nothing follows, so the task is cut as it was
    by_contra hrecut
    rw [Bool.not_eq_false] at hrecut
    have hreset : none = some Follow.reset := hfollow.trans (followOf_reset hrecut)
    cases hreset
  · exact hchange _ rfl
  · exact hchange _ rfl

/-- An event that neither registers nor moves a task leaves every done task placed. -/
theorem Grounded.quiet (h : Grounded log) {payload : EventPayload}
    (hquiet : quiet payload = true)
    (hacc : Accepted (runLog.record log node payload)) :
    Grounded (runLog.record log node payload) := by
  have hmoves : Built.quiet (runLog.next log node payload) = true ∧
      Registered.quiet payload = true ∧
      ∀ kv, doneOf (runLog.next log node payload) ≠ some kv := by
    unfold Handover.quiet at hquiet
    split at hquiet
    · cases hquiet
    · next hchange =>
      refine ⟨?_, hquiet, ?_⟩
      · unfold Built.quiet
        rw [RunLog.payload_next]
        split
        · next heq =>
          rw [Option.some.inj heq] at hquiet
          cases hquiet
        · next heq => exact absurd (Option.some.inj heq) (hchange _)
        · rfl
      · intro kv
        unfold doneOf
        rw [RunLog.payload_next]
        split
        · next heq => exact absurd (Option.some.inj heq) (hchange _)
        · exact fun heq => nomatch heq
  obtain ⟨hstill, hrecorded, hnone⟩ := hmoves
  obtain ⟨hrefuse, hderive⟩ := derive_snoc hacc
  have hstatus : ∀ id, (derive (runLog.record log node payload)).tasks.status id =
      (derive log).tasks.status id := by
    intro id
    rw [RunLog.record, hderive]
    exact Built.status_quiet hrefuse hstill id
  have hprior : priorRegistrations (runLog.record log node payload) = priorRegistrations log := by
    rw [RunLog.record, priorRegistrations_append,
      (quiet_spec (runLog.payload_next log node payload) hrecorded).2]
  refine ⟨hacc, ?_, ?_⟩
  · intro id hknown
    rw [hprior]
    refine h.known id ?_
    have hsome : ((derive log).tasks.status id).isSome = true := by
      rw [← hstatus, TaskLedger.status_standing, Option.isSome_map]
      exact hknown
    rwa [TaskLedger.status_standing, Option.isSome_map] at hsome
  · intro id hdone
    rw [hstatus] at hdone
    obtain ⟨identity, commit, hwent, hidentity⟩ := h.placed id hdone
    exact ⟨identity, commit, hwent.snoc (fun other => hnone (id, other)), hprior ▸ hidentity⟩

/-- An acceptance leaves every done task placed. -/
theorem Grounded.accept (h : Grounded log) (hash : ContentHash) (origin : ArtifactOrigin) :
    Grounded (runLog.record log node
      (.artifacts (.accepted ⟨.interpreted .tasks, hash, origin⟩))) := by
  obtain ⟨event, hevent⟩ : ∃ event, event = runLog.next log node
      (.artifacts (.accepted ⟨.interpreted .tasks, hash, origin⟩)) := ⟨_, rfl⟩
  have hp : event.payload = some (.artifacts (.accepted ⟨.interpreted .tasks, hash, origin⟩)) := by
    rw [hevent]
    rfl
  have hrefuse : (derive log).refuse event = .ok () := by rw [RunState.refuse, hp]
  have hderive : derive (log ++ [event]) = (derive log).taken event := by
    rw [derive_append h.accepted, RunState.deriveFrom, RunState.apply_eq, hrefuse]
    rfl
  have htasks : (derive (log ++ [event])).tasks = (derive log).tasks := by
    rw [hderive, RunState.taken_artifact hp]
    rfl
  have hprior : priorRegistrations (log ++ [event]) = priorRegistrations log := by
    rw [priorRegistrations_append, registeredIdentity, hp]
  rw [RunLog.record, ← hevent]
  refine ⟨?_, ?_, ?_⟩
  · rw [Accepted, hderive]
    exact (RunState.taken_frame hrefuse).2.2.trans h.accepted
  · intro id hknown
    rw [htasks] at hknown
    rw [hprior]
    exact h.known id hknown
  · intro id hdone
    rw [htasks] at hdone
    obtain ⟨identity, commit, hwent, hidentity⟩ := h.placed id hdone
    refine ⟨identity, commit, hwent.snoc ?_, hprior ▸ hidentity⟩
    intro other hother
    rw [doneOf, hp] at hother
    cases hother

/-- What follows an entry is what follows it over this log. -/
def FollowsOver (log : List StoredEvent) (carried : OrdMap TaskId CommitSha) (planned : Planned) :
    Prop :=
  planned.follow = followOf planned.task (priorRegistrations log)[planned.task.id]?
    ((derive log).tasks.status planned.task.id) carried[planned.task.id]?

/-- Entries of other tasks leave what the log says of a task as it was. -/
theorem recordAll_other (h : Accepted log) {plan : List Planned}
    (hnodup : (plan.map (·.task.id)).Nodup) {id : TaskId} (hout : id ∉ plan.map (·.task.id)) :
    (derive (plan.foldl (recordPlanned runLog node) log)).tasks.status id =
        (derive log).tasks.status id ∧
      (priorRegistrations (plan.foldl (recordPlanned runLog node) log))[id]? =
        (priorRegistrations log)[id]? := by
  obtain ⟨-, hstanding, hprior⟩ := recordAll_standing runLog node hnodup h
  constructor
  · rw [TaskLedger.status_standing, hstanding, entryOf_none hout, TaskLedger.status_standing]
  · rw [hprior, entryOf_none hout]

/-- **The entries of a registration, in order**: each one's task is as the plan read it. -/
theorem Grounded.recordAll {plan : List Planned} (h : Grounded log)
    (hnodup : (plan.map (·.task.id)).Nodup) {carried : OrdMap TaskId CommitSha}
    (hfollow : ∀ planned ∈ plan, FollowsOver log carried planned) :
    Grounded (plan.foldl (recordPlanned runLog node) log) := by
  induction plan generalizing log with
  | nil => exact h
  | cons planned plan ih =>
    obtain ⟨hout, hrest⟩ := List.nodup_cons.mp hnodup
    refine ih (h.planned runLog node (hfollow planned List.mem_cons_self)) hrest ?_
    intro later hlater
    have hother : later.task.id ∉ [planned].map (·.task.id) := by
      intro heq
      rw [List.map_singleton, List.mem_singleton] at heq
      refine hout ?_
      show planned.task.id ∈ _
      rw [← heq]
      exact List.mem_map_of_mem hlater
    have hone : ([planned].map (·.task.id)).Nodup := List.nodup_singleton _
    obtain ⟨hstatus, hprior⟩ := recordAll_other runLog node h.accepted hone hother
    have hover := hfollow later (List.mem_cons_of_mem _ hlater)
    unfold FollowsOver at hover ⊢
    rw [hover]
    show _ = followOf later.task
      (priorRegistrations ([planned].foldl (recordPlanned runLog node) log))[later.task.id]?
      ((derive ([planned].foldl (recordPlanned runLog node) log)).tasks.status later.task.id) _
    rw [hstatus, hprior]

/-- What the plan of a document says follows each entry is what follows it over the log it was
    planned over. -/
theorem plan_followsOver {document : TasksFile} {carried : OrdMap TaskId CommitSha} :
    ∀ planned ∈ planRegistration document (priorRegistrations log) (derive log).tasks carried,
      FollowsOver log carried planned := by
  intro planned hplanned
  obtain ⟨task, -, rfl⟩ := List.mem_map.mp hplanned
  rfl

/-- **A whole close** leaves every done task placed. -/
theorem Grounded.register (h : Grounded log) (plan : Declared) (provenance : Provenance) :
    Grounded (register runLog log node plan.document provenance) :=
  h.recordAll runLog node (plan_nodup plan.declaredOnce ..) plan_followsOver

/-- **A cut close** leaves every done task placed, where it parts no registration from its
    reset. -/
theorem Grounded.registerCut (h : Grounded log) (plan : Declared) (provenance : Provenance)
    (kept : Nat) (hparts : ∀ task ∈ plan.document.tasks,
      partsReset log (registerCut runLog log node plan.document provenance kept) task = false) :
    Grounded (registerCut runLog log node plan.document provenance kept) := by
  obtain ⟨done, rest, hplan, hcut⟩ :=
    registerCut_atEntry runLog node plan.document provenance log kept
  have hnodup := plan_nodup plan.declaredOnce (priorRegistrations log) (derive log).tasks
    provenance.carried
  have hfollow := @plan_followsOver log plan.document provenance.carried
  rw [hplan] at hfollow
  rw [hplan, List.map_append, List.nodup_append] at hnodup
  obtain ⟨hdone, -, hapart⟩ := hnodup
  have hwhole : Grounded (done.foldl (recordPlanned runLog node) log) :=
    h.recordAll runLog node hdone fun planned hmem => hfollow planned (List.mem_append_left _ hmem)
  rcases hcut with hcut | ⟨next, rest', rfl, hsome, hcut⟩
  · rw [hcut]
    exact hwhole
  · have hout : next.task.id ∉ done.map (·.task.id) := by
      intro hmem
      exact hapart _ hmem _ (List.mem_map_of_mem List.mem_cons_self) rfl
    obtain ⟨hstatus, hprior⟩ := recordAll_other runLog node h.accepted hdone hout
    have hmember : next ∈ planRegistration plan.document (priorRegistrations log)
        (derive log).tasks provenance.carried := by
      rw [hplan]
      simp
    have htask : next.task ∈ plan.document.tasks := by
      obtain ⟨task, htask, rfl⟩ := List.mem_map.mp hmember
      exact htask
    have hkept := hparts next.task htask
    rw [hcut] at hkept ⊢
    refine hwhole.registered runLog node next.task ?_
    rw [hstatus, hprior]
    intro hstood
    -- the cut kept the registration alone: were it of a task cut otherwise, its reset is parted
    by_contra hrecut
    rw [Bool.not_eq_false] at hrecut
    obtain ⟨more, hmore, hany⟩ := recordAll_entries runLog node done log
    have hmoves : (done.any fun planned =>
        planned.task.id = next.task.id && planned.follow.isSome) = false := by
      rw [List.any_eq_false]
      intro planned hplanned hboth
      rw [Bool.and_eq_true, decide_eq_true_eq] at hboth
      exact hout (hboth.1 ▸ List.mem_map_of_mem hplanned)
    have hsince : since log (recordRegistered runLog node
        (done.foldl (recordPlanned runLog node) log) next.task) =
        more ++ [runLog.next (log ++ more) node (.tasks (.registered (registrationOf next.task)))] := by
      rw [hmore, recordRegistered, RunLog.record, since, List.append_assoc, List.drop_left]
    have hparted : partsReset log (recordRegistered runLog node
        (done.foldl (recordPlanned runLog node) log) next.task) next.task = true := by
      unfold partsReset
      rw [hsince, hstood, hrecut, List.any_append, List.any_append, (hany next.task.id).2, hmoves]
      simp [registers, moves, registrationOf]
    rw [hparted] at hkept
    cases hkept

end Grounds

/-! ## What crosses -/

section Crosses

variable {docs : ContentHash → Option Declared} {log : List StoredEvent}

/-- What a walk that reads every entry answers, it read of an entry. -/
theorem exists_of_mapM {α β : Type} {f : α → Option β} {entries : List α} {read : List β}
    (h : entries.mapM f = some read) {b : β} (hb : b ∈ read) : ∃ a ∈ entries, f a = some b := by
  induction entries generalizing read with
  | nil =>
    cases h
    cases hb
  | cons a entries ih =>
    rw [List.mapM_cons] at h
    obtain ⟨first, hfirst, hwalk⟩ := Option.bind_eq_some_iff.mp h
    obtain ⟨rest, hrest, heq⟩ := Option.bind_eq_some_iff.mp hwalk
    cases heq
    rcases List.mem_cons.mp hb with rfl | hb
    · exact ⟨a, List.mem_cons_self, hfirst⟩
    · obtain ⟨other, hother, hread⟩ := ih hrest hb
      exact ⟨other, List.mem_cons_of_mem _ hother, hread⟩

/-- What the newest of some acceptances is, is one of them. -/
theorem laterOf_mem {refs : List ArtifactRef} {best : Option ArtifactRef} {ref : ArtifactRef}
    (h : refs.foldl ArtifactLedger.laterOf best = some ref) : ref ∈ refs ∨ best = some ref := by
  induction refs generalizing best with
  | nil => exact .inr h
  | cons held refs ih =>
    rcases ih h with hmem | hbest
    · exact .inl (List.mem_cons_of_mem _ hmem)
    · unfold ArtifactLedger.laterOf at hbest
      split at hbest
      · split at hbest
        · cases hbest
          exact .inl List.mem_cons_self
        · exact .inr hbest
      · cases hbest
        exact .inl List.mem_cons_self

/-- An artifact the ledger holds is held under its own producer and identity. -/
theorem held_of_current {k : Held} {ref : ArtifactRef}
    (h : (ArtifactLedger.of log).current[k]? = some ref) : ref.held = k := by
  rw [(ArtifactLedger.of_holds log).current] at h
  exact (Joined.lastOf_key _ h).2

/-- **Every route hands over what a producer holds.** -/
theorem documentOf_handedOver {route : Route} {ref : ArtifactRef}
    (h : ref ∈ handedOver log route) : documentOf docs log ref.producer = docs ref.contentHash := by
  have hcurrent : ∃ k : Held, (ArtifactLedger.of log).current[k]? = some ref ∧
      ref.artifact = .interpreted .tasks := by
    cases route with
    | promotion =>
      obtain ⟨hevery, hkind⟩ := List.mem_filter.mp h
      obtain ⟨k, -, hk⟩ := List.mem_filterMap.mp hevery
      exact ⟨k, hk, of_decide_eq_true hkind⟩
    | mount node =>
      have hk : (ArtifactLedger.of log).current[((some node, .interpreted .tasks) : Held)]? =
          some ref := Option.mem_toList.mp h
      exact ⟨_, hk, congrArg Prod.snd (held_of_current hk)⟩
    | child =>
      have hlast : (((ArtifactLedger.of log).current.toList.map (·.2)).filter
          (·.artifact = .interpreted .tasks)).foldl ArtifactLedger.laterOf none = some ref :=
        Option.mem_toList.mp h
      rcases laterOf_mem hlast with hmem | hnone
      · obtain ⟨hvalue, hkind⟩ := List.mem_filter.mp hmem
        obtain ⟨⟨k, value⟩, hk, rfl⟩ := List.mem_map.mp hvalue
        exact ⟨k, Std.ExtTreeMap.mem_toList_iff_getElem?_eq_some.mp hk, of_decide_eq_true hkind⟩
      · cases hnone
  obtain ⟨k, hk, hartifact⟩ := hcurrent
  have hheld : k = (ref.producer, .interpreted .tasks) := by
    rw [← held_of_current hk, ← hartifact]
    rfl
  rw [hheld] at hk
  rw [documentOf, hk, Option.bind_some]

/-- **A document whose done tasks are on record as it cuts them** is handed over with no `done` of
    another task. -/
theorem answersFor_of_recorded {plan : Declared} (h : Grounded log)
    (hrecorded : ∀ task ∈ plan.document.tasks, (derive log).tasks.status task.id = some .done →
      (priorRegistrations log)[task.id]? = some (Identity.of task)) : AnswersFor ⟨log, plan⟩ := by
  intro run standing tree carried hstanding hcarried runLog receiver node event hevent id commit
    hdone
  obtain ⟨task, htask, rfl, landed, rfl, hlanded⟩ :=
    register_dones runLog receiver node plan.document (.inherited carried) hevent hdone
  obtain ⟨-, hstands⟩ := standingOf_spec hstanding
  obtain ⟨hstatus, hplaced⟩ := hstands _ _ (carriedInto_spec hcarried hlanded)
  obtain ⟨identity, commit, hwent, hidentity⟩ := h.placed task.id hstatus
  have hsame : identity = Identity.of task := by
    rw [hrecorded task htask hstatus] at hidentity
    exact (Option.some.inj hidentity).symm
  have hcommit : commit = some landed := by
    rw [hwent.placed] at hplaced
    exact hplaced
  rw [hsame, hcommit] at hwent
  exact ⟨task, htask, rfl, rfl, hwent⟩

end Crosses

/-! ## The invariant -/

section
variable (docs : ContentHash → Option Declared) (runLog : RunLog)

/-- What every run that keeps its identities keeps: a producer that closed on its document has each
    of its tasks on record, as long as no close since cut it otherwise. -/
structure Kept (live : Live) : Prop where
  grounded : Grounded live.log
  recorded : ∀ producer, producer ∉ live.handed → ∀ plan ∈ documentOf docs live.log producer,
    ∀ task ∈ plan.document.tasks,
      (∀ other ∈ closedSince live.closings producer, CutsAlike other task) →
      (priorRegistrations live.log)[task.id]? = some (Identity.of task)
  handovers : ∀ handed ∈ live.handovers, AnswersFor handed

theorem kept_born : Kept docs born where
  grounded := grounded_nil
  recorded := by
    intro producer _ plan hplan
    simp [born, documentOf, ArtifactLedger.of] at hplan
  handovers := fun handed hhanded => nomatch hhanded

section Steps

variable {docs}
variable {live : Live}

/-- Registrations that cut a task as it is on record leave it there. -/
theorem recorded_registers {log more : List StoredEvent} {node : Option NodeId}
    {document : TasksFile} (hr : Registers node document.tasks log more) {task : Task}
    (halike : CutsAlike document task)
    (hprior : (priorRegistrations log)[task.id]? = some (Identity.of task)) :
    (priorRegistrations (log ++ more))[task.id]? = some (Identity.of task) := by
  refine priorRegistrations_of_only ?_ (.inl hprior)
  intro event hevent identity hidentity
  obtain ⟨written, hwritten, hid, rfl⟩ := hr.own event hevent _ _ hidentity
  exact halike written hwritten hid

/-- A document handed over leaves what every other producer has on record. -/
theorem kept_accept (h : Kept docs live) (producer : Option NodeId) (hash : ContentHash)
    (origin : ArtifactOrigin) : Kept docs { live with
      log := runLog.record live.log producer
        (.artifacts (.accepted ⟨.interpreted .tasks, hash, origin⟩))
      handed := live.handed ++ [producer] } := by
  refine ⟨h.grounded.accept runLog producer hash origin, ?_, h.handovers⟩
  intro other hother plan hplan task htask halike
  have hclosed : other ∉ live.handed := fun hmem => hother (List.mem_append_left _ hmem)
  have hne : producer ≠ other := by
    rintro rfl
    exact hother (List.mem_append_right _ List.mem_cons_self)
  rw [documentOf_accept, if_neg hne] at hplan
  rw [RunLog.record, priorRegistrations_append]
  exact h.recorded other hclosed plan hplan task htask halike

/-- **A whole close** puts each task of its document on record, and leaves those of the documents
    it cuts alike. -/
theorem kept_close (h : Kept docs live) {producer : Option NodeId} {held : Declared}
    (hheld : documentOf docs live.log producer = some held) (provenance : Provenance) :
    Kept docs { live with
      log := register runLog live.log producer held.document provenance
      handed := live.handed.filter (· ≠ producer)
      closings := ⟨producer, held.document, true⟩ :: live.closings } := by
  refine ⟨h.grounded.register runLog producer held provenance, ?_, h.handovers⟩
  obtain ⟨more, hmore, hr, hall⟩ :=
    register_registers runLog live.log producer held.document provenance
  intro other hother plan hplan task htask halike
  rw [hmore] at hplan ⊢
  rw [documentOf_append docs (acceptances_registers hr)] at hplan
  by_cases hown : producer = other
  · -- the producer closes on the document it holds: its own registrations are the last
    subst hown
    obtain rfl : held = plan := Option.some.inj (hheld.symm.trans hplan)
    obtain ⟨event, hevent, hp⟩ := hall task htask
    refine priorRegistrations_of_only ?_ (.inr ⟨event, hevent, ?_⟩)
    · intro event hevent identity hidentity
      obtain ⟨written, hwritten, hid, rfl⟩ := hr.own event hevent _ _ hidentity
      rw [TasksFile.eq_of_id held.declaredOnce hwritten htask hid]
    · rw [registeredIdentity, hp]
      rfl
  · have hclosed : other ∉ live.handed := by
      intro hmem
      exact hother (List.mem_filter.mpr ⟨hmem, by simpa using fun heq => hown heq.symm⟩)
    have hsince : closedSince (⟨producer, held.document, true⟩ :: live.closings) other =
        held.document :: closedSince live.closings other := by
      simp [closedSince, hown]
    rw [hsince] at halike
    exact recorded_registers hr (halike _ List.mem_cons_self)
      (h.recorded other hclosed plan hplan task htask
        fun later hlater => halike later (List.mem_cons_of_mem _ hlater))

/-- A cut close leaves on record the tasks its document cuts alike. -/
theorem kept_cut (h : Kept docs live) {producer : Option NodeId} {held : Declared}
    (provenance : Provenance) (kept : Nat) (hparts : ∀ task ∈ held.document.tasks,
      partsReset live.log
        (registerCut runLog live.log producer held.document provenance kept) task = false) :
    Kept docs { live with
      log := registerCut runLog live.log producer held.document provenance kept
      closings := ⟨producer, held.document, false⟩ :: live.closings } := by
  refine ⟨h.grounded.registerCut runLog producer held provenance kept hparts, ?_, h.handovers⟩
  obtain ⟨more, hmore, hr⟩ :=
    registerCut_registers runLog live.log producer held.document provenance kept
  intro other hclosed plan hplan task htask halike
  rw [hmore] at hplan ⊢
  rw [documentOf_append docs (acceptances_registers hr)] at hplan
  have hsince : closedSince (⟨producer, held.document, false⟩ :: live.closings) other =
      held.document :: closedSince live.closings other := by
    simp [closedSince]
  rw [hsince] at halike
  exact recorded_registers hr (halike _ List.mem_cons_self)
    (h.recorded other hclosed plan hplan task htask
      fun later hlater => halike later (List.mem_cons_of_mem _ hlater))

/-- An event that registers no task and accepts no tasks document leaves what is on record. -/
theorem kept_record (h : Kept docs live) (node : Option NodeId) {payload : EventPayload}
    (hquiet : Registered.quiet payload = true)
    (hgrounded : Grounded (runLog.record live.log node payload)) :
    Kept docs { live with log := runLog.record live.log node payload } := by
  obtain ⟨hnone, hreg⟩ := quiet_spec (runLog.payload_next live.log node payload) hquiet
  refine ⟨hgrounded, ?_, h.handovers⟩
  intro other hclosed plan hplan task htask halike
  rw [RunLog.record, documentOf_append docs hnone] at hplan
  rw [RunLog.record, priorRegistrations_append, hreg]
  exact h.recorded other hclosed plan hplan task htask halike

/-- **A handover that keeps its identities** is of documents whose done tasks are on record. -/
theorem kept_handOver (h : Kept docs live) {route : Route}
    (hkeeps : KeepsIdentity docs runLog live (.handOver route)) {plans : List Declared}
    (hplans : (handedOver live.log route).mapM (fun ref => docs ref.contentHash) = some plans) :
    Kept docs { live with
      handovers := live.handovers ++ plans.map fun plan => ⟨live.log, plan⟩ } := by
  refine ⟨h.grounded, h.recorded, ?_⟩
  intro handed hhanded
  rcases List.mem_append.mp hhanded with hhanded | hhanded
  · exact h.handovers handed hhanded
  · obtain ⟨plan, hplan, rfl⟩ := List.mem_map.mp hhanded
    obtain ⟨ref, href, hread⟩ : ∃ ref ∈ handedOver live.log route,
        docs ref.contentHash = some plan := by
      exact exists_of_mapM hplans hplan
    refine answersFor_of_recorded h.grounded ?_
    intro task htask hdone
    obtain ⟨hclosed, halike⟩ := hkeeps ref href plan hread task htask hdone
    refine h.recorded ref.producer hclosed plan ?_ task htask halike
    rw [documentOf_handedOver href]
    exact hread

/-- **One act of a run that keeps its identities.** -/
theorem kept_step {act : Act} {live' : Live} (h : Kept docs live)
    (hkeeps : KeepsIdentity docs runLog live act)
    (htaken : step docs runLog live act = some live') : Kept docs live' := by
  cases act with
  | accept producer hash origin =>
    rw [step] at htaken
    split at htaken
    · cases htaken
      exact kept_accept runLog h producer hash origin
    · cases htaken
  | close producer provenance =>
    obtain ⟨held, hheld, rfl⟩ := Option.map_eq_some_iff.mp htaken
    exact kept_close runLog h hheld provenance
  | cut producer provenance kept =>
    obtain ⟨held, hheld, rfl⟩ := Option.map_eq_some_iff.mp htaken
    exact kept_cut runLog h provenance kept (hkeeps held hheld)
  | change node change =>
    rw [step] at htaken
    split at htaken
    · next hknown =>
      cases htaken
      exact kept_record runLog h node rfl (h.grounded.change runLog node hknown)
    · cases htaken
  | handOver route =>
    obtain ⟨plans, hplans, rfl⟩ := Option.map_eq_some_iff.mp htaken
    exact kept_handOver runLog h hkeeps hplans
  | event node payload =>
    rw [step] at htaken
    split at htaken
    · next hguard =>
      cases htaken
      obtain ⟨hquiet, hacc⟩ := hguard
      have hrecorded : Registered.quiet payload = true := by
        unfold quiet at hquiet
        split at hquiet
        · cases hquiet
        · exact hquiet
      exact kept_record runLog h node hrecorded (h.grounded.quiet runLog node hquiet hacc)
    · cases htaken

end Steps

/-! ## The run -/

end

/-! ## A plan, worked, and a rival -/

/-- The planner closes, and a loop works its task. -/
def worked : List Act :=
  [.accept (some "plan") "planned" .submitted, .close (some "plan") .fresh,
    .change (some "loop") (.done "a" 2 "0000000")]

end Handover

end Yunta
