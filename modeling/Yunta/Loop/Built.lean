/-
  What a loop builds on: documents registered over one another, and the batches between them.

  1. **Runs** — a document is registered over whatever the log says, a batch is taken from the
     current document, and statuses move: a task a batch took starts or is done, and any task the
     log knows is blocked or put back.

  2. **Order** — `InOrder`: what is not done waits for what is not done through tasks still open, so
     a task whose own dependencies are done waits for nothing.  Every step keeps it where a
     registration leaves it and nothing done is moved back (`inOrder_step`).

  3. **Main result** — `built_on_built`: in such a run no pending task is taken before all it waits
     for, and the owner of every shape it builds on, are done.
-/
import Yunta.Lib.Machine
import Yunta.Loop.Batch
import Yunta.Loop.Moves
import Yunta.Tasks.Judged
import Yunta.Tasks.Registration
import Yunta.Tasks.Shapes

set_option linter.unusedVariables false

namespace Yunta.Built

open Loop Machine Precedence
open Relation (TransGen)

/-! ## Runs -/

/-- A tasks document the run accepted. -/
structure Plan where
  document : TasksFile
  declaredOnce : document.DeclaredOnce
  dependenciesDeclared : document.DependenciesDeclared
  acyclic : document.Acyclic
  shapesOnce : Owned.duplicates document = []
  usesWait : Owned.uses document = []

/-- The document of a run that registered none yet. -/
def Plan.empty : Plan where
  document := { tasks := [] }
  declaredOnce := by decide
  dependenciesDeclared := by decide
  acyclic := TasksFile.acyclic_of_rank (fun _ => 0) (fun task htask => nomatch htask)
  shapesOnce := rfl
  usesWait := rfl

/-- The log, the document last registered, and the tasks a batch took and the loop still holds. -/
structure Live where
  log : List StoredEvent
  plan : Plan
  inHand : List TaskId

/-- What the log says of a task. -/
def Live.status (live : Live) (id : TaskId) : Option TaskStatus :=
  (derive live.log).tasks.status id

/-- What a loop selects over: the commands and the spec that hold its tasks, and its
    `concurrency:`. -/
structure Selecting where
  held : List String
  spec : Option SpecFile
  concurrency : Nat

/-- The batch the loop takes of the current document, each task as the run judges it now. -/
def batch (selects : ScopeGlob → String → Bool) (live : Live) (how : Selecting) : List Task :=
  selectBatch selects
    (judgedPlan live.plan.document how.held how.spec (derive live.log).tasks)
    (derive live.log) how.concurrency

inductive Act where
  | register (node : Option NodeId) (plan : Plan) (provenance : Provenance)
  | select (how : Selecting)
  /-- A status change, by the loop or on a person's word. -/
  | change (node : Option NodeId) (change : TaskStatusChangedPayload)
  /-- The loop lets go of a task: its attempt ended, or a crash cut it. -/
  | leave (id : TaskId)
  /-- Any other event of the run. -/
  | event (event : StoredEvent)

/-- Whether an event leaves every task where it stood. -/
def quiet (event : StoredEvent) : Bool :=
  match event.payload with
  | some (.tasks (.registered _)) => false
  | some (.tasks (.statusChanged _)) => false
  | _ => true

/-- A task starts, or is done, only in a loop's hand. -/
def allowed (live : Live) (change : TaskStatusChangedPayload) : Bool :=
  match change.newStatus with
  | .running | .done => live.inHand.contains change.taskId
  | _ => true

section
variable (selects : ScopeGlob → String → Bool) (runLog : RunLog)

def step (live : Live) : Act → Option Live
  | .register node plan provenance =>
    some { live with
      log := Yunta.register runLog live.log node plan.document provenance
      plan }
  | .select how =>
    some { live with inHand := live.inHand ++ (batch selects live how).map (·.id) }
  | .change node change =>
    if (derive live.log).tasks.contains change.taskId && allowed live change then
      some { live with log := runLog.record live.log node (.tasks (.statusChanged change)) }
    else none
  | .leave id => some { live with inHand := live.inHand.filter (· ≠ id) }
  | .event event =>
    if quiet event = true ∧ Accepted (live.log ++ [event]) then
      some { live with log := live.log ++ [event] }
    else none

/-- A run before its first document: whatever its log holds, it registered no task. -/
def born (log : List StoredEvent) : Live := ⟨log, .empty, []⟩

/-- **No task is built on unbuilt work**: a pending task a batch takes waits for nothing that is not
    done, and uses no shape another task has still to build. -/
def BuiltOnBuilt (live : Live) (how : Selecting) : Prop :=
  ∀ task ∈ batch selects live how, live.status task.id = some .pending →
    (∀ earlier, TransGen live.plan.document.DependsOn task.id earlier →
      live.status earlier = some .done) ∧
    ∀ shape ∈ live.plan.document.shapes, shape.name ∈ task.uses → shape.owner ≠ task.id →
      live.status shape.owner = some .done

/-! ## Order -/

/-- Where a registration leaves a task: settled by what follows it, or as it stood. -/
def leaves (log : List StoredEvent) (document : TasksFile) (provenance : Provenance)
    (id : TaskId) : Option TaskStatus :=
  match document.tasks.find? (·.id = id) with
  | some task =>
    let stood := (derive log).tasks.standing id
    some (settle (followOf task (priorRegistrations log)[id]? (stood.map (·.1))
      provenance.carried[id]?) stood).1
  | none => (derive log).tasks.status id

/-- A task no one started: not done, not running, and in no loop's hand. -/
def Untouched (status : TaskId → Option TaskStatus) (inHand : List TaskId) (id : TaskId) : Prop :=
  status id ≠ some .done ∧ status id ≠ some .running ∧ id ∉ inHand

/-- **In order**: each task not done waits for each that is not done through tasks no one started. -/
def InOrder (document : TasksFile) (status : TaskId → Option TaskStatus) (inHand : List TaskId) :
    Prop :=
  Ordered document.DependsOn (status · = some .done) (Untouched status inHand)

/-- **An act that keeps the order**: a registration leaves its document's tasks in it, and no change
    takes back a task the log holds done. -/
def KeepsOrder (live : Live) : Act → Prop
  | .register node plan provenance =>
    InOrder plan.document (leaves live.log plan.document provenance) live.inHand
  | .change node change => change.newStatus ≠ .done → live.status change.taskId ≠ some .done
  | _ => True

end

/-! ## What each step does -/

/-- A quiet event moves no task. -/
theorem status_quiet {s : RunState} {event : StoredEvent} (h : s.refuse event = .ok ())
    (hquiet : quiet event = true) (id : TaskId) :
    (s.taken event).tasks.status id = s.tasks.status id := by
  cases hp : event.payload with
  | none => rw [RunState.taken_unknown hp]; rfl
  | some payload =>
    cases payload with
    | run e => rw [RunState.taken_run hp]; rfl
    | node e => rw [RunState.taken_node hp]; cases e <;> rfl
    | session e => rw [RunState.taken_session h hp]; exact status_applySession e
    | tasks e =>
      rw [RunState.taken_task h hp]
      unfold quiet at hquiet
      rw [hp] at hquiet
      cases e with
      | registered p => cases hquiet
      | statusChanged p => cases hquiet
      | deviationDeclared p =>
        exact status_withTask (f := fun r => { r with departuresOwed := r.departuresOwed ++ [p] })
          fun _ => rfl
      | deviationResolved p =>
        exact status_withTask (f := fun r => r.answered p event.meta_.seq) fun _ => rfl
      | _ => rfl
    | scope e => rw [RunState.taken_scope h hp]; rfl
    | findings e => rw [RunState.taken_finding hp]; rfl
    | artifacts e => rw [RunState.taken_artifact hp]; rfl
    | gates e => rw [RunState.taken_gate h hp]; rfl
    | children e => rw [RunState.taken_child hp]; rfl

/-- A registration leaves each task where `leaves` says. -/
theorem status_register (runLog : RunLog) (node : Option NodeId) (plan : Plan)
    (provenance : Provenance) {log : List StoredEvent} (h : Accepted log) (id : TaskId) :
    (derive (register runLog log node plan.document provenance)).tasks.status id =
      leaves log plan.document provenance id := by
  rw [TaskLedger.status_standing, register_standing plan.declaredOnce h, leaves]
  cases plan.document.tasks.find? (·.id = id) with
  | none => rw [TaskLedger.status_standing]
  | some task => rfl

theorem accepted_register (runLog : RunLog) (node : Option NodeId) (plan : Plan)
    (provenance : Provenance) {log : List StoredEvent} (h : Accepted log) :
    Accepted (register runLog log node plan.document provenance) :=
  (recordAll_standing runLog node (plan_nodup plan.declaredOnce ..) h).1

/-- A status change of a task the log knows moves that task, and no other. -/
theorem status_change (runLog : RunLog) (node : Option NodeId) {change : TaskStatusChangedPayload}
    {log : List StoredEvent} (h : Accepted log)
    (hknown : (derive log).tasks.contains change.taskId = true) :
    Accepted (runLog.record log node (.tasks (.statusChanged change))) ∧
    ∀ id, (derive (runLog.record log node (.tasks (.statusChanged change)))).tasks.status id =
      if change.taskId = id then some change.newStatus else (derive log).tasks.status id := by
  rw [TaskLedger.contains_standing] at hknown
  obtain ⟨hacc, hmoved⟩ := moved_standing runLog node h hknown
  refine ⟨hacc, fun id => ?_⟩
  rw [TaskLedger.status_standing, hmoved, TaskLedger.status_standing]
  by_cases hid : change.taskId = id
  · obtain ⟨stood, hstood⟩ := Option.isSome_iff_exists.mp hknown
    rw [if_pos hid, if_pos hid, ← hid, hstood]
    rfl
  · rw [if_neg hid, if_neg hid]

/-- **What a batch takes**: tasks of the current document, each running, or pending with its own
    dependencies done. -/
theorem mem_batch {selects : ScopeGlob → String → Bool} {live : Live} {how : Selecting} {task : Task}
    (h : task ∈ batch selects live how) :
    ∃ declared ∈ live.plan.document.tasks, declared.id = task.id ∧ declared.uses = task.uses ∧
      (live.status task.id = some .running ∨ live.status task.id = some .pending ∧
        ∀ dep, live.plan.document.DependsOn task.id dep → live.status dep = some .done) := by
  obtain ⟨hmem, hready⟩ := mem_selectBatch h
  obtain ⟨declared, hdeclared, rfl⟩ := List.mem_map.mp hmem
  obtain ⟨criteria, heq⟩ :=
    judged_eq declared how.held how.spec (derive live.log).tasks
  rw [heq] at hready ⊢
  refine ⟨declared, hdeclared, rfl, rfl, ?_⟩
  rcases ready_iff.mp hready with hrunning | ⟨hpending, hdeps⟩
  · exact .inl hrunning
  · refine .inr ⟨hpending, ?_⟩
    rintro dep ⟨other, hother, hid, hdep⟩
    obtain rfl := TasksFile.eq_of_id live.plan.declaredOnce hother hdeclared hid
    exact hdeps dep hdep

/-! ## Every run -/

/-- What every run of acts that keep the order has. -/
structure Kept (live : Live) : Prop where
  accepted : Accepted live.log
  inOrder : InOrder live.plan.document live.status live.inHand

/-- A task no one started is not done. -/
theorem not_done_of_untouched {status : TaskId → Option TaskStatus} {inHand : List TaskId}
    (id : TaskId) (h : Untouched status inHand id) : ¬ status id = some .done := h.1

variable {selects : ScopeGlob → String → Bool} {runLog : RunLog}

/-- A batch takes only tasks that are running, or whose own dependencies are done. -/
theorem inOrder_select {live : Live} (h : Kept live) (how : Selecting) :
    InOrder live.plan.document live.status
      (live.inHand ++ (batch selects live how).map (·.id)) := by
  refine h.inOrder.step not_done_of_untouched (fun id hdone => hdone) ?_
  rintro id ⟨hdone, hrunning, hhand⟩
  by_cases htaken : id ∈ (batch selects live how).map (·.id)
  · obtain ⟨task, htask, rfl⟩ := List.mem_map.mp htaken
    obtain ⟨-, -, -, -, hrun | ⟨-, hdeps⟩⟩ := mem_batch htask
    · exact absurd hrun hrunning
    · exact .inr hdeps
  · refine .inl ⟨hdone, hrunning, fun hmem => ?_⟩
    rcases List.mem_append.mp hmem with hmem | hmem
    · exact hhand hmem
    · exact htaken hmem

/-- A change of a task the log does not hold done, or one that makes a task in hand done, keeps the
    order. -/
theorem inOrder_change {live : Live} (h : Kept live) {change : TaskStatusChangedPayload}
    (hallowed : allowed live change = true)
    (hkeeps : change.newStatus ≠ .done → live.status change.taskId ≠ some .done)
    {status : TaskId → Option TaskStatus}
    (hstatus : ∀ id, status id =
      if change.taskId = id then some change.newStatus else live.status id) :
    InOrder live.plan.document status live.inHand := by
  refine h.inOrder.step not_done_of_untouched ?_ ?_
  · intro id hdone
    show status id = some .done
    rw [hstatus]
    split
    · next hid =>
      by_contra hnot
      have hne : change.newStatus ≠ .done := fun heq => hnot (congrArg some heq)
      exact hkeeps hne (by rw [hid]; exact hdone)
    · exact hdone
  · rintro id ⟨hdone, hrunning, hhand⟩
    refine .inl ?_
    by_cases hid : change.taskId = id
    · -- a task no loop holds neither starts nor is done
      have hstood : status id = some change.newStatus := by rw [hstatus, if_pos hid]
      have hnot : live.inHand.contains change.taskId = false := by simpa [hid] using hhand
      unfold allowed at hallowed
      refine ⟨?_, ?_, hhand⟩
      · rw [hstood]
        intro heq
        rw [Option.some.inj heq, hnot] at hallowed
        cases hallowed
      · rw [hstood]
        intro heq
        rw [Option.some.inj heq, hnot] at hallowed
        cases hallowed
    · have hstood : status id = live.status id := by rw [hstatus, if_neg hid]
      exact ⟨by rw [hstood]; exact hdone, by rw [hstood]; exact hrunning, hhand⟩

/-- **Every act that keeps the order keeps it.** -/
theorem inOrder_step {live live' : Live} {act : Act} (h : Kept live) (hkeeps : KeepsOrder live act)
    (hstep : step selects runLog live act = some live') : Kept live' := by
  cases act with
  | register node plan provenance =>
    cases hstep
    refine ⟨accepted_register runLog node plan provenance h.accepted, ?_⟩
    have hstatus : Live.status ⟨register runLog live.log node plan.document provenance, plan,
        live.inHand⟩ = leaves live.log plan.document provenance :=
      funext (status_register runLog node plan provenance h.accepted)
    show InOrder plan.document (Live.status _) live.inHand
    rw [hstatus]
    exact hkeeps
  | select how =>
    cases hstep
    exact ⟨h.accepted, inOrder_select h how⟩
  | change node change =>
    simp only [step] at hstep
    split at hstep
    · next hguard =>
      cases hstep
      obtain ⟨hknown, hallowed⟩ := (Bool.and_eq_true _ _).mp hguard
      obtain ⟨hacc, hstatus⟩ := status_change runLog node h.accepted hknown
      exact ⟨hacc, inOrder_change h hallowed hkeeps hstatus⟩
    · cases hstep
  | leave id =>
    cases hstep
    refine ⟨h.accepted, h.inOrder.step not_done_of_untouched (fun id hdone => hdone) ?_⟩
    rintro other ⟨hdone, hrunning, hhand⟩
    exact .inl ⟨hdone, hrunning, fun hmem => hhand (List.mem_filter.mp hmem).1⟩
  | event event =>
    simp only [step] at hstep
    split at hstep
    · next hguard =>
      cases hstep
      obtain ⟨hquiet, hacc⟩ := hguard
      obtain ⟨hrefuse, hderive⟩ := derive_snoc hacc
      have hstatus : Live.status ⟨live.log ++ [event], live.plan, live.inHand⟩ = live.status := by
        funext id
        show (derive (live.log ++ [event])).tasks.status id = (derive live.log).tasks.status id
        rw [hderive]
        exact status_quiet hrefuse hquiet id
      refine ⟨hacc, ?_⟩
      rw [hstatus]
      exact h.inOrder
    · cases hstep

/-- A document with no task is in order. -/
theorem kept_born {log : List StoredEvent} (h : Accepted log) : Kept (born log) := by
  refine ⟨h, Precedence.ordered_of_still ?_⟩
  rintro a b ⟨task, htask, -⟩
  exact absurd htask List.not_mem_nil

/-- **No task is built on unbuilt work** in a run whose registrations leave their tasks in order and
    that takes back nothing done: whatever a batch takes that is pending, all it waits for is done,
    and so is the owner of every shape it builds on. -/
theorem built_on_built (selects : ScopeGlob → String → Bool) (runLog : RunLog)
    {log : List StoredEvent} (hlog : Accepted log) {live : Live}
    (h : Reached (step selects runLog) KeepsOrder (born log) live) (how : Selecting) :
    BuiltOnBuilt selects live how := by
  have hkept : Kept live := h.invariant (kept_born hlog) fun _ _ _ hkept hkeeps hstep =>
    inOrder_step hkept hkeeps hstep
  intro task htask hpending
  obtain ⟨declared, hdeclared, hid, huses, hrun | ⟨-, hdeps⟩⟩ := mem_batch htask
  · rw [hpending] at hrun
    cases hrun
  have hopen : ¬ live.status task.id = some .done := by
    rw [hpending]
    exact fun h => nomatch h
  have hall : ∀ earlier, TransGen live.plan.document.DependsOn task.id earlier →
      live.status earlier = some .done :=
    fun earlier => hkept.inOrder.all_done not_done_of_untouched hopen hdeps
  refine ⟨hall, fun shape hshape hused hother => hall shape.owner ?_⟩
  rw [← hid] at hother ⊢
  rw [← huses] at hused
  exact Owned.owner_waited live.plan.declaredOnce live.plan.shapesOnce live.plan.usesWait hdeclared
    hshape hused hother

/-! ## A chain of three -/

/-- A registration that starts a document over, and a change that takes back nothing done. -/
def Starts (live : Live) : Act → Prop
  | .register node plan provenance =>
    ∀ task ∈ plan.document.tasks,
      leaves live.log plan.document provenance task.id = some .pending ∧ task.id ∉ live.inHand
  | .change node change => change.newStatus ≠ .done → live.status change.taskId ≠ some .done
  | _ => True

instance (live : Live) (act : Act) : Decidable (Starts live act) := by
  cases act <;> unfold Starts <;> infer_instance

/-- A document all of whose tasks are pending is in order. -/
theorem keepsOrder_of_starts (live : Live) (act : Act) (h : Starts live act) :
    KeepsOrder live act := by
  cases act with
  | register node plan provenance =>
    refine Precedence.ordered_of_still ?_
    rintro a b ⟨task, htask, rfl, hdep⟩
    obtain ⟨dep, hmem, rfl⟩ := List.mem_map.mp (plan.dependenciesDeclared task htask b hdep)
    obtain ⟨hpending, hhand⟩ := h dep hmem
    refine ⟨?_, ?_, hhand⟩
    · rw [hpending]
      exact fun h => nomatch h
    · rw [hpending]
      exact fun h => nomatch h
  | change node change => exact h
  | select how => trivial
  | leave id => trivial
  | event event => trivial

/-- `c` on `b` on `a`, each in a directory of its own; `c` builds on a shape of `a`, which lives in
    `lib` once `a` is recut. -/
def chainDocument (recut : Bool) : TasksFile where
  tasks :=
    [{ id := "a", scope := [if recut then "lib/**" else "a/**"], criteria := [] },
      { id := "b", scope := ["b/**"], criteria := [], dependsOn := ["a"] },
      { id := "c", scope := ["c/**"], criteria := [], dependsOn := ["b"], uses := ["Theme"] }]
  shapes := [{ name := "Theme", owner := "a", file := if recut then "lib/theme.rs" else "a/theme.rs" }]

def chainPlan (recut : Bool) : Plan where
  document := chainDocument recut
  declaredOnce := by cases recut <;> decide
  dependenciesDeclared := by cases recut <;> decide
  acyclic := by
    refine TasksFile.acyclic_of_rank
      (fun id => if id = "a" then 0 else if id = "b" then 1 else 2) ?_
    cases recut <;> decide
  shapesOnce := rfl
  usesWait := by cases recut <;> decide +kernel

/-- A loop of two, on the plan's own criteria. -/
def byTwo : Selecting := ⟨[], none, 2⟩

/-- A glob selects the path it spells. -/
def spelled (glob : ScopeGlob) (path : String) : Bool := glob = path

/-- A task's whole work: taken, started and done. -/
def worked (id : TaskId) : List Act :=
  [.select byTwo, .change none (.to id .running 1), .change none (.done id 1 "0000000"), .leave id]

/-- The chain registered, and `a` and `b` worked. -/
def bothWorked : List Act :=
  .register none (chainPlan false) .fresh :: (worked "a" ++ worked "b")

/-- The run reaches a state where `c` is taken: `a`, which owns its shape, is done. -/
theorem built_on_built_chain :
    ∃ live, Reached (step spelled {}) KeepsOrder (born []) live ∧
      ((batch spelled live byTwo).map (·.id) = ["c"] ∧ live.status "c" = some .pending) ∧
      BuiltOnBuilt spelled live byTwo := by
  obtain ⟨live, hreached, htaken⟩ := exists_reached (step spelled {}) Starts (born []) bothWorked
    (fun live => (batch spelled live byTwo).map (·.id) == ["c"] &&
      live.status "c" == some .pending) (by decide +kernel)
  have hkeeps : Reached (step spelled {}) KeepsOrder (born []) live :=
    hreached.mono keepsOrder_of_starts
  rw [Bool.and_eq_true, beq_iff_eq, beq_iff_eq] at htaken
  exact ⟨live, hkeeps, htaken, built_on_built spelled {} (by decide +kernel) hkeeps byTwo⟩

/-- **A recut puts back one task alone**: `a` is cut to another scope once `b` on it is done, and
    the next batch takes `c`, which builds on a shape `a` has still to build. -/
theorem not_built_on_built :
    ∃ live, Reached (step spelled {}) Free (born []) live ∧
      ((batch spelled live byTwo).map (·.id) = ["a", "c"] ∧
        live.status "c" = some .pending ∧ live.status "a" = some .pending) ∧
      ¬ BuiltOnBuilt spelled live byTwo := by
  obtain ⟨live, hreached, htaken⟩ := exists_reached (step spelled {}) Free (born [])
    (bothWorked ++ [.register none (chainPlan true) .fresh])
    (fun live => decide (((batch spelled live byTwo).map (·.id) = ["a", "c"] ∧
      live.status "c" = some .pending ∧ live.status "a" = some .pending) ∧
      live.plan.document = chainDocument true)) (by decide +kernel)
  obtain ⟨⟨hids, hc, ha⟩, hplan⟩ := of_decide_eq_true htaken
  refine ⟨live, hreached, ⟨hids, hc, ha⟩, fun h => ?_⟩
  have hmem : "c" ∈ (batch spelled live byTwo).map (·.id) := by
    rw [hids]
    decide
  obtain ⟨task, htask, hid⟩ := List.mem_map.mp hmem
  obtain ⟨hall, -⟩ := h task htask (by rw [hid]; exact hc)
  -- `c` waits for `a` through `b`
  have hcb : live.plan.document.DependsOn task.id "b" := by
    rw [hplan, hid]
    exact ⟨_, List.mem_of_getElem? (i := 2) rfl, rfl, List.mem_singleton.mpr rfl⟩
  have hba : live.plan.document.DependsOn "b" "a" := by
    rw [hplan]
    exact ⟨_, List.mem_of_getElem? (i := 1) rfl, rfl, List.mem_singleton.mpr rfl⟩
  have hdone := hall "a" (.tail (.single hcb) hba)
  rw [ha] at hdone
  cases hdone

end Yunta.Built
