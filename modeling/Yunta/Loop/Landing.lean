/-
  A batch's tasks, landed one by one on the integration tree, over any crashes.

  1. **Criteria** — what a pre-check finds wrong before any work (`surprises`), and what a landing is
     judged by (`closes`).  What closes a task is what its next pre-check refuses
     (`surprises_of_closes`).

  2. **The machine** — a process selects a batch, dispatches each member in a tree cut from the
     integration tree, and settles the members in declaration order.  Landing a task moves the tree;
     its status is appended after that, by an act of its own.  A crash between any two acts leaves
     the log, the tree and no process.

  3. **Main result** — `landed_done`: in every run no crash of which falls between a landing and the
     append of its status, every task that landed did so once and is done.  A crash there leaves the
     task Running, and the pre-check of its next cycle blocks it (`not_landed_done`).
-/
import Yunta.Lib.Machine
import Yunta.Loop.Batch
import Yunta.Loop.Moves
import Yunta.Replay.Lifecycle

set_option linter.unusedVariables false

namespace Yunta.Loop

open RunState

/-! ## Criteria -/

/-- What one criterion's command answered on the tree it ran on. -/
structure CriterionRun where
  cmd : String
  exitCode : Int
  isGuard : Bool
  deriving DecidableEq

/-- Whether an exit code says its command never answered: the shell did not find it or could not
    run it, or the engine stopped it. -/
def couldNotRun (exitCode : Int) : Bool := exitCode = 127 || exitCode = 126 || exitCode = -2

/-- What the run of one criterion says is wrong before any work. -/
def surprise (runs : List CriterionRun) (criterion : Criterion) : Option Surprise :=
  -- by command and kind: one task may declare a command as a guard and as a criterion
  (runs.find? fun run => run.cmd = criterion.cmd && run.isGuard = criterion.isGuard).bind fun run =>
    if couldNotRun run.exitCode then some (.unrunnable run.cmd run.exitCode)
    else if run.isGuard then if run.exitCode ≠ 0 then some (.brokenGuard run.cmd) else none
    else if run.exitCode = 0 then some (.trivialCriterion run.cmd)
    else none

/-- The pre-check's findings: a criterion that already passes, a guard already red, or a command
    that never answered. -/
def surprises (task : Task) (runs : List CriterionRun) : List Surprise :=
  task.criteria.filterMap (surprise runs)

section
variable {τ : Type} (answer : τ → String → Int)

/-- Every criterion of `task` run on `tree`. -/
def runCriteria (task : Task) (tree : τ) : List CriterionRun :=
  task.criteria.map fun criterion => ⟨criterion.cmd, answer tree criterion.cmd, criterion.isGuard⟩

/-- Whether the work on `tree` closes its task: its criteria pass, and `clean` says that nothing
    waits and nothing it changed lies outside its scope. -/
def closes (task : Task) (tree : τ) (clean : Bool) : Bool :=
  ((runCriteria answer task tree).all fun run => run.exitCode = 0) && clean

/-- **What closes a task surprises its next pre-check**: each of its criteria that is no guard
    already passes on the tree its work landed on. -/
theorem surprises_of_closes {task : Task} {tree : τ} {clean : Bool}
    (h : closes answer task tree clean = true) {criterion : Criterion}
    (hmem : criterion ∈ task.criteria) (hordinary : criterion.isGuard = false) :
    Surprise.trivialCriterion criterion.cmd ∈ surprises task (runCriteria answer task tree) := by
  obtain ⟨hgreen, -⟩ := Bool.and_eq_true_iff.mp h
  refine List.mem_filterMap.mpr ⟨criterion, hmem, ?_⟩
  unfold surprise
  cases hfind : (runCriteria answer task tree).find? fun run =>
      run.cmd = criterion.cmd && run.isGuard = criterion.isGuard with
  | none =>
    have hnone := List.find?_eq_none.mp hfind ⟨criterion.cmd, _, criterion.isGuard⟩
      (List.mem_map.mpr ⟨criterion, hmem, rfl⟩)
    simp at hnone
  | some run =>
    have hrun := List.all_eq_true.mp hgreen run (List.mem_of_find?_eq_some hfind)
    have hsame := List.find?_some hfind
    simp only [Bool.and_eq_true, decide_eq_true_eq] at hrun hsame
    simp [hsame.1, hsame.2, hordinary, hrun, couldNotRun]

end

/-! ## The machine -/

/-- A task blocked, why it stopped, and the work its last attempt left. -/
def blockedChange (task : TaskId) (causedBy : Nat) (left : Option CommitSha) (stop : TaskCause) :
    TaskStatusChangedPayload :=
  { TaskStatusChangedPayload.to task .blocked causedBy with leftWork := left, stop := some stop }

/-- How a task's cycle ended: verified done in its own tree, with what rebasing its work onto a tree
    gives, none for a conflict; blocked, with the work it left; or cut. -/
inductive Report (τ : Type) where
  | done (rebase : τ → Option τ)
  | blocked (cause : TaskCause) (left : Option CommitSha)
  | interrupted

/-- Where the process stands with a member of its batch. -/
inductive Phase (τ : Type) where
  | waiting | working
  | reported (report : Report τ)
  | settled

namespace Phase

variable {τ : Type}

def isWaiting : Phase τ → Bool
  | waiting => true
  | _ => false

def isWorking : Phase τ → Bool
  | working => true
  | _ => false

def isSettled : Phase τ → Bool
  | settled => true
  | _ => false

/-- Whether the member's cycle is over. -/
def isOver : Phase τ → Bool
  | reported _ | settled => true
  | _ => false

end Phase

/-- A batch being worked: the tree its members were cut from, the state it was selected from, and
    the task that landed and whose status is still to be appended. -/
structure Walk (τ : Type) where
  base : τ
  selected : RunState
  batch : List Task
  phase : TaskId → Phase τ := fun _ => .waiting
  landing : Option (TaskId × CommitSha) := none

inductive Process (τ : Type) where
  | idle
  | walking (walk : Walk τ)

/-- A loop's run: its log as replay derives it, the integration tree, every landing in order, and
    the process running it, if one does. -/
structure LoopLife (τ : Type) where
  run : RunState
  head : τ
  landed : List TaskId := []
  process : Option (Process τ) := none

inductive Act (τ : Type) where
  | wake
  | select
  | dispatch (task : TaskId) (seq : Nat) (at_ : Int)
  | report (task : TaskId) (report : Report τ)
  /-- Settles the next member: a block, a rejection or a landing. -/
  | settle (seq : Nat) (at_ : Int) (check : Nat) (commit : CommitSha) (clean : Bool)
  /-- Appends the status of the task that landed. -/
  | record (seq : Nat) (at_ : Int) (check : Nat)
  | finish
  /-- A person reopens a blocked task. -/
  | reopen (seq : Nat) (at_ : Int) (p : TaskStatusChangedPayload)
  /-- Any other event the run records meanwhile. -/
  | log (event : StoredEvent)
  | crash

section
variable {τ : Type} (selects : ScopeGlob → String → Bool) (document : TasksFile)
  (concurrency : Nat) (node : NodeId) (answer : τ → String → Int)

/-- A status change under the loop's node. -/
def statusEvent (seq : Nat) (at_ : Int) (p : TaskStatusChangedPayload) : StoredEvent :=
  { seq := seq, timestamp := at_, nodeId := some node, body := .known (.tasks (.statusChanged p)) }

/-- Whether an event moves a task. -/
def movesATask (event : StoredEvent) : Bool :=
  match event.payload with
  | some (.tasks (.statusChanged _)) => true
  | _ => false

/-- The registration the log holds for a task, which the change that starts its dispatch cites. -/
def registrationSeq (run : RunState) (task : TaskId) : Nat :=
  ((run.tasks.get task).bind (·.registeredAt)).getD 0

/-- Whether a member's cycle pre-checks: one that carries the work an earlier attempt left judges
    that work instead. -/
def Walk.preChecks (walk : Walk τ) (task : TaskId) : Bool :=
  ((walk.selected.tasks.get task).bind (·.leftWork)).isNone

/-- Whether a member's cycle can end so: a pre-check ends it exactly where it finds something. -/
def Walk.allows (walk : Walk τ) (task : Task) : Report τ → Bool
  | .blocked (.preCheck found) _ =>
    walk.preChecks task.id && !found.isEmpty &&
      found = surprises task (runCriteria answer task walk.base)
  | .done _ =>
    !walk.preChecks task.id || (surprises task (runCriteria answer task walk.base)).isEmpty
  | _ => true

/-- The next member to settle, in declaration order, once every cycle of the batch is over. -/
def Walk.next (walk : Walk τ) : Option Task :=
  if walk.batch.all fun task => (walk.phase task.id).isOver then
    walk.batch.find? fun task => !(walk.phase task.id).isSettled
  else none

def Walk.put (walk : Walk τ) (task : TaskId) (phase : Phase τ) : Walk τ :=
  { walk with phase := Function.update walk.phase task phase }

@[simp] theorem Walk.phase_put_self (walk : Walk τ) (task : TaskId) (phase : Phase τ) :
    (walk.put task phase).phase task = phase :=
  Function.update_self ..

theorem Walk.phase_put_other (walk : Walk τ) {task other : TaskId} (h : task ≠ other)
    (phase : Phase τ) : (walk.put task phase).phase other = walk.phase other :=
  Function.update_of_ne (Ne.symm h) ..

/-- Settles one member on its report. -/
def settleOn (s : LoopLife τ) (walk : Walk τ) (task : Task) (seq : Nat) (at_ : Int) (check : Nat)
    (commit : CommitSha) (clean : Bool) : Report τ → LoopLife τ
  | .interrupted => { s with process := none }
  | .blocked cause left =>
    { s with
      run := s.run.append (statusEvent node seq at_ (blockedChange task.id check left cause))
      process := some (.walking (walk.put task.id .settled)) }
  | .done rebase =>
    match (rebase s.head).filter fun tree => closes answer task tree clean with
    | some tree =>
      { s with
        head := tree
        landed := s.landed ++ [task.id]
        process := some (.walking { walk with landing := some (task.id, commit) }) }
    | none =>
      -- a conflict, or a rebased tree that does not close the task: back to pending
      { s with
        run := s.run.append (statusEvent node seq at_ (.to task.id .pending check))
        process := some (.walking (walk.put task.id .settled)) }

/-- One act of a process walking its batch. -/
def walkStep (s : LoopLife τ) (walk : Walk τ) : Act τ → Option (LoopLife τ)
  | .dispatch task seq at_ =>
    if walk.batch.any (·.id = task) && (walk.phase task).isWaiting then
      some
        { s with
          run := s.run.append
            (statusEvent node seq at_ (.to task .running (registrationSeq walk.selected task)))
          process := some (.walking (walk.put task .working)) }
    else none
  | .report task report =>
    if (walk.batch.any fun member => member.id = task && walk.allows answer member report) &&
        (walk.phase task).isWorking then
      some { s with process := some (.walking (walk.put task (.reported report))) }
    else none
  | .settle seq at_ check commit clean =>
    match walk.landing, walk.next with
    | none, some task =>
      match walk.phase task.id with
      | .reported report =>
        some (settleOn node answer s walk task seq at_ check commit clean report)
      | _ => none
    | _, _ => none
  | .record seq at_ check =>
    walk.landing.map fun landing =>
      { s with
        run := s.run.append (statusEvent node seq at_ (.done landing.1 check landing.2))
        process := some (.walking { walk.put landing.1 .settled with landing := none }) }
  | .finish =>
    if walk.landing.isNone && walk.batch.all fun task => (walk.phase task.id).isSettled then
      some { s with process := some .idle }
    else none
  | _ => none

/-- One act of the process that runs the loop, or its wake. -/
def processStep (s : LoopLife τ) (act : Act τ) : Option (LoopLife τ) :=
  match s.process, act with
  | none, .wake => some { s with process := some .idle }
  | some .idle, .select =>
    let batch := selectBatch selects document s.run concurrency
    if batch.isEmpty then none
    else
      some
        { s with process := some (.walking { base := s.head, selected := s.run, batch := batch }) }
  | some (.walking walk), act => walkStep node answer s walk act
  | _, _ => none

def step (s : LoopLife τ) : Act τ → Option (LoopLife τ)
  | .crash => some { s with process := none }
  | .log event => if movesATask event then none else some { s with run := s.run.append event }
  | .reopen seq at_ p =>
    if s.run.tasks.status p.taskId = some .blocked && p.newStatus = .pending then
      some { s with run := s.run.append (statusEvent node seq at_ p) }
    else none
  | act => processStep selects document concurrency node answer s act

end

/-- The task that landed and whose status is still to be appended. -/
def LoopLife.landing {τ : Type} (s : LoopLife τ) : Option TaskId :=
  match s.process with
  | some (.walking walk) => walk.landing.map (·.1)
  | _ => none

/-- No crash between a landing and the append of its status. -/
def RecordsLanding {τ : Type} (s : LoopLife τ) : Act τ → Prop
  | .crash => s.landing = none
  | _ => True

instance {τ : Type} (s : LoopLife τ) : ∀ act : Act τ, Decidable (RecordsLanding s act)
  | .crash => inferInstanceAs (Decidable (_ = none))
  | .wake | .select | .dispatch .. | .report .. | .settle .. | .record .. | .finish | .reopen ..
  | .log _ => .isTrue trivial

/-- Every task that landed did so once, and is done as soon as its status is on the log. -/
structure LandedDone {τ : Type} (s : LoopLife τ) : Prop where
  once : s.landed.Nodup
  done : ∀ task ∈ s.landed, s.landing ≠ some task → s.run.tasks.status task = some .done
  /-- No landed task is blocked, on a pre-check or on anything else. -/
  unblocked : ∀ task ∈ s.landed, s.run.tasks.status task ≠ some .blocked

/-! ## Where tasks stand after an append -/

section
variable {run : RunState} {task : TaskId} {stood : TaskStatus}

/-- An event that does not move a task leaves it where it stands. -/
theorem append_status (hstood : run.tasks.status task = some stood) {event : StoredEvent}
    (hmove : move task event = none) : (run.append event).tasks.status task = some stood := by
  rw [append_eq]
  split
  · next h => rw [status_taken h hstood, hmove]; rfl
  · exact hstood

/-- **A status change moves its task**, which the log knows. -/
theorem append_moved (hstood : run.tasks.status task = some stood) (node : NodeId) (seq : Nat)
    (at_ : Int) {p : TaskStatusChangedPayload} (hp : p.taskId = task) :
    (run.append (statusEvent node seq at_ p)).tasks.status task = some p.newStatus := by
  have hcontains : run.tasks.contains p.taskId = true := by
    obtain ⟨record, hget, -⟩ := Option.map_eq_some_iff.mp hstood
    exact (TaskLedger.contains_iff _ _).mpr ⟨record, hp ▸ hget⟩
  have htaken : run.refuse (statusEvent node seq at_ p) = .ok () := by
    show (if run.tasks.contains p.taskId then (Except.ok () : Except ReplayError Unit) else _) = _
    rw [if_pos hcontains]
  have hmove : move task (statusEvent node seq at_ p) = some p.newStatus := if_pos hp
  rw [append_eq, if_pos htaken, status_taken htaken hstood, hmove]
  rfl

/-- A status change leaves every other task where it stands. -/
theorem append_other_task (hstood : run.tasks.status task = some stood) (node : NodeId) (seq : Nat)
    (at_ : Int) {p : TaskStatusChangedPayload} (hp : p.taskId ≠ task) :
    (run.append (statusEvent node seq at_ p)).tasks.status task = some stood :=
  append_status hstood (if_neg hp)

end

/-! ## What every step keeps -/

/-- A task a batch may hold: pending or running. -/
def Open (run : RunState) (task : TaskId) : Prop :=
  run.tasks.status task = some .pending ∨ run.tasks.status task = some .running

theorem Open.stands {run : RunState} {task : TaskId} (h : Open run task) :
    ∃ stood, run.tasks.status task = some stood ∧ stood ≠ .done ∧ stood ≠ .blocked := by
  rcases h with h | h
  · exact ⟨.pending, h, by decide, by decide⟩
  · exact ⟨.running, h, by decide, by decide⟩

theorem Open.append {run : RunState} {task : TaskId} (h : Open run task) {event : StoredEvent}
    (hmove : move task event = none) : Open (run.append event) task :=
  h.imp (append_status · hmove) (append_status · hmove)

/-- A batch in hand: no member still to settle has landed, but the one whose status is still to be
    appended, and each of them stands open. -/
structure Walks {τ : Type} (run : RunState) (landed : List TaskId) (walk : Walk τ) : Prop where
  open_ : ∀ task ∈ walk.batch.map (·.id), (walk.phase task).isSettled = false → Open run task
  unlanded : ∀ task ∈ walk.batch.map (·.id), (walk.phase task).isSettled = false →
    walk.landing.map (·.1) ≠ some task → task ∉ landed
  landing : ∀ task, walk.landing.map (·.1) = some task →
    Open run task ∧ (walk.phase task).isOver = true

structure Tracked {τ : Type} (s : LoopLife τ) : Prop where
  once : s.landed.Nodup
  done : ∀ task ∈ s.landed, s.landing ≠ some task → s.run.tasks.status task = some .done
  walks : ∀ walk, s.process = some (.walking walk) → Walks s.run s.landed walk

namespace Tracked

variable {τ : Type} {s : LoopLife τ}

/-- With nothing landing, an open task has not landed. -/
theorem not_landed (h : Tracked s) (hlanding : s.landing = none) {task : TaskId}
    (hopen : Open s.run task) : task ∉ s.landed := by
  intro hmem
  have hdone := h.done task hmem (by rw [hlanding]; simp)
  obtain ⟨stood, hstood, hne, -⟩ := hopen.stands
  rw [hdone] at hstood
  exact hne (Option.some.inj hstood).symm

theorem landedDone (h : Tracked s) : LandedDone s where
  once := h.once
  done := h.done
  unblocked := by
    intro task hmem hblocked
    by_cases hlanding : s.landing = some task
    · unfold LoopLife.landing at hlanding
      split at hlanding
      · next walk hwalk =>
        obtain ⟨stood, hstood, -, hne⟩ := ((h.walks walk hwalk).landing task hlanding).1.stands
        rw [hblocked] at hstood
        exact hne (Option.some.inj hstood).symm
      · cases hlanding
    · rw [h.done task hmem hlanding] at hblocked
      cases hblocked

/-- A process that walks no batch: everything that landed is done. -/
theorem rest (h : Tracked s) (hlanding : s.landing = none) {process : Option (Process τ)}
    (hprocess : ∀ walk, process ≠ some (.walking walk)) : Tracked { s with process := process } where
  once := h.once
  done := fun task hmem _ => h.done task hmem (by rw [hlanding]; simp)
  walks := fun walk hwalk => absurd hwalk (hprocess walk)

/-- An event that moves no landed task and no open one. -/
theorem append (h : Tracked s) {event : StoredEvent}
    (hmove : ∀ task, s.run.tasks.status task ≠ some .blocked → move task event = none) :
    Tracked { s with run := s.run.append event } where
  once := h.once
  done := by
    intro task hmem hlanding
    have hdone := h.done task hmem hlanding
    exact append_status hdone (hmove task (by rw [hdone]; simp))
  walks := by
    intro walk hwalk
    have hw := h.walks walk hwalk
    have hkeep : ∀ task, Open s.run task → Open (s.run.append event) task := by
      intro task hopen
      obtain ⟨stood, hstood, -, hne⟩ := hopen.stands
      exact hopen.append (hmove task (by rw [hstood]; simpa using hne))
    exact ⟨fun task hmem hphase => hkeep task (hw.open_ task hmem hphase), hw.unlanded,
      fun task hlanding => ⟨hkeep task (hw.landing task hlanding).1, (hw.landing task hlanding).2⟩⟩

section Walking

variable {walk : Walk τ}

theorem landing_of_walk (hwalk : s.process = some (.walking walk)) :
    s.landing = walk.landing.map (·.1) := by
  unfold LoopLife.landing
  rw [hwalk]

/-- **A member's status change**: a member still to settle, which has not landed, moves to running
    or is settled. -/
theorem moved (h : Tracked s) (hwalk : s.process = some (.walking walk)) {task : TaskId}
    (hmem : task ∈ walk.batch.map (·.id)) (hphase : (walk.phase task).isSettled = false)
    (hlanding : walk.landing.map (·.1) ≠ some task) (node : NodeId) (seq : Nat) (at_ : Int)
    {p : TaskStatusChangedPayload} (hp : p.taskId = task) {phase : Phase τ}
    (hnext : phase.isSettled = true ∨ p.newStatus = .running) :
    Tracked { s with
      run := s.run.append (statusEvent node seq at_ p)
      process := some (.walking (walk.put task phase)) } := by
  have hw := h.walks walk hwalk
  have hnot := hw.unlanded task hmem hphase hlanding
  obtain ⟨stood, hstood, -, -⟩ := (hw.open_ task hmem hphase).stands
  have hother : ∀ other, task ≠ other → Open s.run other →
      Open (s.run.append (statusEvent node seq at_ p)) other := fun other hne hopen =>
    hopen.append (if_neg (hp ▸ hne))
  refine ⟨h.once, ?_, ?_⟩
  · intro landed hlanded hne
    rw [show LoopLife.landing { s with
        run := s.run.append (statusEvent node seq at_ p)
        process := some (.walking (walk.put task phase)) } = s.landing from
      (landing_of_walk hwalk).symm] at hne
    refine append_other_task (h.done landed hlanded hne) node seq at_ ?_
    rw [hp]
    rintro rfl
    exact hnot hlanded
  · intro walk' hwalk'
    obtain rfl : walk.put task phase = walk' := by simpa using hwalk'
    constructor
    · intro other hother_mem hother_phase
      by_cases hsame : task = other
      · subst hsame
        rw [walk.phase_put_self] at hother_phase
        rcases hnext with hsettled | hrunning
        · rw [hsettled] at hother_phase
          cases hother_phase
        · exact .inr (by rw [append_moved hstood node seq at_ hp, hrunning])
      · rw [walk.phase_put_other hsame] at hother_phase
        exact hother other hsame (hw.open_ other hother_mem hother_phase)
    · intro other hother_mem hother_phase hother_landing
      by_cases hsame : task = other
      · exact hsame ▸ hnot
      · rw [walk.phase_put_other hsame] at hother_phase
        exact hw.unlanded other hother_mem hother_phase hother_landing
    · intro landing hlands
      have hne : task ≠ landing := by
        rintro rfl
        exact hlanding hlands
      rw [walk.phase_put_other hne]
      obtain ⟨hopen, hover⟩ := hw.landing landing hlands
      exact ⟨hother landing hne hopen, hover⟩

/-- A member's cycle ends: nothing is appended. -/
theorem reported (h : Tracked s) (hwalk : s.process = some (.walking walk)) {task : TaskId}
    (hphase : (walk.phase task).isWorking = true) (report : Report τ) :
    Tracked { s with process := some (.walking (walk.put task (.reported report))) } := by
  have hw := h.walks walk hwalk
  have hunsettled : ∀ other, ((walk.put task (.reported report)).phase other).isSettled = false →
      (walk.phase other).isSettled = false := by
    intro other hother
    by_cases hsame : task = other
    · subst hsame
      cases hcase : walk.phase task <;> simp_all [Phase.isWorking, Phase.isSettled]
    · rwa [walk.phase_put_other hsame] at hother
  refine ⟨h.once, ?_, ?_⟩
  · intro landed hlanded hne
    exact h.done landed hlanded (by rwa [landing_of_walk hwalk])
  · intro walk' hwalk'
    obtain rfl : walk.put task (.reported report) = walk' := by simpa using hwalk'
    refine ⟨fun other hmem hother => hw.open_ other hmem (hunsettled other hother),
      fun other hmem hother => hw.unlanded other hmem (hunsettled other hother), ?_⟩
    intro landing hlands
    obtain ⟨hopen, hover⟩ := hw.landing landing hlands
    refine ⟨hopen, ?_⟩
    by_cases hsame : task = landing
    · subst hsame
      cases hcase : walk.phase task <;> simp_all [Phase.isWorking, Phase.isOver]
    · rwa [walk.phase_put_other hsame]

/-- **A landing**: a member that has not landed lands, and its status is still to be appended. -/
theorem lands (h : Tracked s) (hwalk : s.process = some (.walking walk)) {task : TaskId}
    (hmem : task ∈ walk.batch.map (·.id)) {report : Report τ}
    (hphase : walk.phase task = .reported report) (hlanding : walk.landing = none) (tree : τ)
    (commit : CommitSha) :
    Tracked { s with
      head := tree
      landed := s.landed ++ [task]
      process := some (.walking { walk with landing := some (task, commit) }) } := by
  have hw := h.walks walk hwalk
  have hunsettled : (walk.phase task).isSettled = false := by rw [hphase]; rfl
  have hnot := hw.unlanded task hmem hunsettled (by simp [hlanding])
  have hnone : s.landing = none := by rw [landing_of_walk hwalk, hlanding]; rfl
  refine ⟨?_, ?_, ?_⟩
  · rw [List.nodup_append]
    refine ⟨h.once, List.nodup_singleton task, ?_⟩
    rintro a ha b hb rfl
    obtain rfl := List.mem_singleton.mp hb
    exact hnot ha
  · intro landed hlanded hne
    rcases List.mem_append.mp hlanded with hlanded | hlanded
    · exact h.done landed hlanded (by rw [hnone]; simp)
    · obtain rfl := List.mem_singleton.mp hlanded
      exact absurd rfl hne
  · intro walk' hwalk'
    obtain rfl : { walk with landing := some (task, commit) } = walk' := by simpa using hwalk'
    refine ⟨hw.open_, ?_, ?_⟩
    · intro other hother hphase' hne
      have hne' : task ≠ other := fun heq => hne (congrArg some heq)
      rw [List.mem_append, List.mem_singleton]
      rintro (hlanded | heq)
      · exact hw.unlanded other hother hphase' (by simp [hlanding]) hlanded
      · exact hne' heq.symm
    · intro landing hlands
      obtain rfl : task = landing := Option.some.inj hlands
      exact ⟨hw.open_ task hmem hunsettled, by rw [hphase]; rfl⟩

/-- **The status of a landing**: the task that landed is done. -/
theorem recorded (h : Tracked s) (hwalk : s.process = some (.walking walk)) {task : TaskId}
    {commit : CommitSha} (hlanding : walk.landing = some (task, commit)) (node : NodeId)
    (seq : Nat) (at_ : Int) (check : Nat) :
    Tracked { s with
      run := s.run.append (statusEvent node seq at_ (.done task check commit))
      process := some (.walking { walk.put task .settled with landing := none }) } := by
  have hw := h.walks walk hwalk
  have hlands : walk.landing.map (·.1) = some task := by rw [hlanding]; rfl
  obtain ⟨hopen, hover⟩ := hw.landing task hlands
  obtain ⟨stood, hstood, -, -⟩ := hopen.stands
  refine ⟨h.once, ?_, ?_⟩
  · intro landed hlanded _
    by_cases hsame : task = landed
    · subst hsame
      rw [append_moved hstood node seq at_ rfl]
      rfl
    · refine append_other_task (h.done landed hlanded ?_) node seq at_ hsame
      rw [landing_of_walk hwalk, hlands]
      exact fun heq => hsame (Option.some.inj heq)
  · intro walk' hwalk'
    obtain rfl : { walk.put task .settled with landing := none } = walk' := by simpa using hwalk'
    have hother : ∀ other, ((walk.put task .settled).phase other).isSettled = false →
        task ≠ other ∧ (walk.phase other).isSettled = false := by
      intro other hphase
      by_cases hsame : task = other
      · rw [← hsame, walk.phase_put_self] at hphase
        cases hphase
      · rw [walk.phase_put_other hsame] at hphase
        exact ⟨hsame, hphase⟩
    refine ⟨?_, ?_, fun landing hlands => nomatch hlands⟩
    · intro other hmem hphase
      obtain ⟨hne, hphase⟩ := hother other hphase
      exact (hw.open_ other hmem hphase).append (if_neg hne)
    · intro other hmem hphase _
      obtain ⟨hne, hphase⟩ := hother other hphase
      refine hw.unlanded other hmem hphase ?_
      rw [hlands]
      exact fun heq => hne (Option.some.inj heq)

end Walking

section Steps

variable {selects : ScopeGlob → String → Bool} {document : TasksFile} {concurrency : Nat}
  {node : NodeId} {answer : τ → String → Int} {walk : Walk τ}

/-- A selected batch holds only tasks that have not landed. -/
theorem selected (h : Tracked s) (hidle : s.landing = none) :
    Tracked { s with
      process := some (.walking
        { base := s.head, selected := s.run, batch := selectBatch selects document s.run concurrency }) }
    := by
  have hopen : ∀ task ∈ (selectBatch selects document s.run concurrency).map (·.id),
      Open s.run task := by
    intro id hmem
    obtain ⟨task, htask, rfl⟩ := List.mem_map.mp hmem
    rcases ready_iff.mp (mem_selectBatch htask).2 with hrunning | ⟨hpending, -⟩
    · exact .inr hrunning
    · exact .inl hpending
  refine ⟨h.once, fun task hmem _ => h.done task hmem (by rw [hidle]; simp), ?_⟩
  intro walk' hwalk'
  obtain rfl := Process.walking.inj (Option.some.inj hwalk')
  exact ⟨fun id hmem _ => hopen id hmem, fun id hmem _ _ => h.not_landed hidle (hopen id hmem),
    fun task hlands => nomatch hlands⟩

theorem settled (h : Tracked s) (hwalk : s.process = some (.walking walk)) {task : Task}
    (hmem : task ∈ walk.batch) {report : Report τ}
    (hphase : walk.phase task.id = .reported report) (hlanding : walk.landing = none) (seq : Nat)
    (at_ : Int) (check : Nat) (commit : CommitSha) (clean : Bool) :
    Tracked (settleOn node answer s walk task seq at_ check commit clean report) := by
  have hid : task.id ∈ walk.batch.map (·.id) := List.mem_map_of_mem hmem
  have hunsettled : (walk.phase task.id).isSettled = false := by rw [hphase]; rfl
  have hnot : walk.landing.map (·.1) ≠ some task.id := by simp [hlanding]
  cases report with
  | interrupted =>
    exact h.rest (by rw [landing_of_walk hwalk, hlanding]; rfl) (by simp)
  | blocked cause left =>
    exact h.moved hwalk hid hunsettled hnot node seq at_ rfl (.inl rfl)
  | done rebase =>
    rw [settleOn]
    cases (rebase s.head).filter fun tree => closes answer task tree clean with
    | some tree => exact h.lands hwalk hid hphase hlanding tree commit
    | none => exact h.moved hwalk hid hunsettled hnot node seq at_ rfl (.inl rfl)

theorem walkStep {s' : LoopLife τ} {act : Act τ} (h : Tracked s)
    (hwalk : s.process = some (.walking walk)) (hstep : walkStep node answer s walk act = some s') :
    Tracked s' := by
  cases act with
  | dispatch task seq at_ =>
    simp only [Loop.walkStep, Option.ite_none_right_eq_some, Bool.and_eq_true,
      Option.some.injEq] at hstep
    obtain ⟨⟨hmember, hwaiting⟩, rfl⟩ := hstep
    obtain ⟨member, hmem, heq⟩ := List.any_eq_true.mp hmember
    have hid : task ∈ walk.batch.map (·.id) :=
      List.mem_map.mpr ⟨member, hmem, by simpa using heq⟩
    have hunsettled : (walk.phase task).isSettled = false := by
      cases hcase : walk.phase task <;> simp_all [Phase.isWaiting, Phase.isSettled]
    refine h.moved hwalk hid hunsettled ?_ node seq at_ rfl (.inr rfl)
    -- the task that landed has reported
    intro hlands
    obtain ⟨-, hover⟩ := (h.walks walk hwalk).landing task hlands
    cases hcase : walk.phase task <;> simp_all [Phase.isWaiting, Phase.isOver]
  | report task report =>
    simp only [Loop.walkStep, Option.ite_none_right_eq_some, Bool.and_eq_true,
      Option.some.injEq] at hstep
    obtain ⟨⟨-, hworking⟩, rfl⟩ := hstep
    exact h.reported hwalk hworking report
  | settle seq at_ check commit clean =>
    simp only [Loop.walkStep] at hstep
    split at hstep
    · next task hlanding hnext =>
      split at hstep
      · next report hphase =>
        obtain rfl := Option.some.inj hstep
        have hmem : task ∈ walk.batch := by
          unfold Walk.next at hnext
          split at hnext
          · exact List.mem_of_find?_eq_some hnext
          · cases hnext
        exact h.settled hwalk hmem hphase hlanding seq at_ check commit clean
      · cases hstep
    · cases hstep
  | record seq at_ check =>
    obtain ⟨⟨task, commit⟩, hlanding, rfl⟩ := Option.map_eq_some_iff.mp hstep
    exact h.recorded hwalk hlanding node seq at_ check
  | finish =>
    simp only [Loop.walkStep, Option.ite_none_right_eq_some, Bool.and_eq_true,
      Option.some.injEq] at hstep
    obtain ⟨⟨hlanding, -⟩, rfl⟩ := hstep
    refine h.rest ?_ (by simp)
    rw [landing_of_walk hwalk, Option.isNone_iff_eq_none.mp hlanding]
    rfl
  | _ => cases hstep

theorem processStep {s' : LoopLife τ} {act : Act τ} (h : Tracked s)
    (hstep : processStep selects document concurrency node answer s act = some s') : Tracked s' := by
  unfold Loop.processStep at hstep
  split at hstep
  · next hprocess =>
    obtain rfl := Option.some.inj hstep
    exact h.rest (by rw [LoopLife.landing, hprocess]) (by simp)
  · next hprocess =>
    simp only [Option.ite_none_left_eq_some, Option.some.injEq] at hstep
    obtain ⟨-, rfl⟩ := hstep
    exact h.selected (by rw [LoopLife.landing, hprocess])
  · next walk hprocess => exact h.walkStep hprocess hstep
  · cases hstep

theorem step {s' : LoopLife τ} {act : Act τ} (h : Tracked s) (hmeets : RecordsLanding s act)
    (hstep : step selects document concurrency node answer s act = some s') : Tracked s' := by
  cases act with
  | crash =>
    obtain rfl := Option.some.inj hstep
    exact h.rest hmeets (by simp)
  | log event =>
    simp only [Loop.step, Option.ite_none_left_eq_some, Bool.not_eq_true, Option.some.injEq] at hstep
    obtain ⟨hmoves, rfl⟩ := hstep
    refine h.append fun task _ => ?_
    unfold movesATask at hmoves
    unfold move
    split at hmoves
    · cases hmoves
    · next hother =>
      cases hp : event.payload with
      | none => rfl
      | some payload =>
        cases payload with
        | tasks e =>
          cases e with
          | statusChanged p => exact absurd hp (hother p)
          | _ => rfl
        | _ => rfl
  | reopen seq at_ p =>
    simp only [Loop.step, Option.ite_none_right_eq_some, Bool.and_eq_true, decide_eq_true_eq,
      Option.some.injEq] at hstep
    obtain ⟨⟨hblocked, -⟩, rfl⟩ := hstep
    refine h.append fun task hne => if_neg ?_
    rintro rfl
    exact hne hblocked
  | _ => exact h.processStep hstep

end Steps

end Tracked

/-! ## Runs -/

/-- **A task whose work landed is recorded done.**  From any log on which nothing landed, in every
    run whose crashes leave no landing without its status, over any batches, landings, rejections,
    reopenings and wakes. -/
theorem landed_done {τ : Type} (selects : ScopeGlob → String → Bool) (document : TasksFile)
    (concurrency : Nat) (node : NodeId) (answer : τ → String → Int) (run : RunState) (head : τ)
    (s : LoopLife τ)
    (h : Machine.Reached (step selects document concurrency node answer) RecordsLanding
      { run := run, head := head } s) : LandedDone s := by
  have hstart : Tracked ({ run := run, head := head } : LoopLife τ) :=
    ⟨List.nodup_nil, fun task hmem => (nomatch hmem), fun walk hwalk => (nomatch hwalk)⟩
  have hsound := h.invariant hstart fun s act s' hs hmeets hstep => hs.step hmeets hstep
  exact hsound.landedDone

/-- One task, held to one criterion. -/
def oneTask : TasksFile :=
  { tasks := [{ id := "a", scope := ["src/**"], criteria := [⟨"make test", none, none⟩] }] }

/-- The log that registers it. -/
def oneRegistered : RunState :=
  derive [⟨"", 1, 0, none, .known (.tasks (.registered { taskId := "a" }))⟩]

/-- The criterion passes where the task's work is. -/
def worked (tree : Bool) (cmd : String) : Int := if tree then 0 else 1

/-- The task is dispatched, verified and landed. -/
def untilLanding : List (Act Bool) :=
  [.wake, .select, .dispatch "a" 2 0, .report "a" (.done fun _ => some true),
    .settle 3 0 0 "c1" true]

/-- A crash after the status is appended, and a wake. -/
def crashedLater : List (Act Bool) := untilLanding ++ [.record 3 0 0, .crash, .wake]

/-- A crash before it, and the cycle the wake dispatches. -/
def crashedBetween : List (Act Bool) :=
  untilLanding ++ [.crash, .wake, .select, .dispatch "a" 3 0,
    .report "a" (.blocked (.preCheck [.trivialCriterion "make test"]) none),
    .settle 4 0 0 "c2" true]

theorem landed_done_later :
    ∃ s, Machine.Reached (step (fun _ _ => false) oneTask 1 "build" worked) RecordsLanding
        { run := oneRegistered, head := false } s ∧
      s.landed = ["a"] ∧ s.run.tasks.status "a" = some .done := by
  obtain ⟨s, hreached, hs⟩ := Machine.exists_reached
    (step (fun _ _ => false) oneTask 1 "build" worked) RecordsLanding
    { run := oneRegistered, head := false } crashedLater
    (fun s => s.landed == ["a"] && s.landing == none) (by decide +kernel)
  obtain ⟨hlanded, hlanding⟩ := Bool.and_eq_true_iff.mp hs
  have hlanded := eq_of_beq hlanded
  have hdone := landed_done (fun _ _ => false) oneTask 1 "build" worked oneRegistered false s
    hreached
  refine ⟨s, hreached, hlanded, hdone.done "a" (by simp [hlanded]) ?_⟩
  rw [eq_of_beq hlanding]
  simp

/-- **A crash between a landing and its status**: the task that landed is blocked by its own
    pre-check, on the tree its own work landed on. -/
theorem not_landed_done :
    ¬ ∀ (document : TasksFile) (answer : Bool → String → Int) (run : RunState) (s : LoopLife Bool),
      Machine.Reached (step (fun _ _ => false) document 1 "build" answer) Machine.Free
        { run := run, head := false } s → LandedDone s := by
  intro hall
  obtain ⟨s, hreached, hs⟩ := Machine.exists_reached
    (step (fun _ _ => false) oneTask 1 "build" worked) Machine.Free
    { run := oneRegistered, head := false } crashedBetween
    (fun s => s.landed == ["a"] && s.run.tasks.status "a" == some .blocked) (by decide +kernel)
  obtain ⟨hlanded, hblocked⟩ := Bool.and_eq_true_iff.mp hs
  refine (hall oneTask worked oneRegistered s hreached).unblocked "a" ?_ (eq_of_beq hblocked)
  rw [eq_of_beq hlanded]
  simp

end Yunta.Loop
