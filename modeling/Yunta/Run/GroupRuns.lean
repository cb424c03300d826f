/-
  A group's whole life on the log: entered, cut and entered again, until it records its terminal.

  1. **The machine** — a process enters the group, plans its children from the log, records the
     uncertain orphans failed one by one, runs the others and closes.  Each append is an act of its
     own, and a cut between any two leaves the log and no process.  Every child has a fixed outcome;
     a cancelled loser of a `join: any` race fails.  A child may also return with none, paused or
     interrupted, and stays Running.

  2. **What an attempt holds** — `Entered` says, child by child, where the process and the log stand
     with it, and what its plan and its results say of the log.  `Entered.move` is the one lemma an
     act on a child needs.

  3. **Closing** — a process that closes no race over a child it left (`Clean`) has none left open
     (`Entered.allSettled`, `Entered.settled`), and closes as an uncut run whose children end so
     would (`Entered.end_uncut`).
-/
import Yunta.Lib.Machine
import Yunta.Run.Group

set_option linter.unusedVariables false

namespace Yunta

/-! ## The machine -/

/-- Where a group's process stands with a child. -/
inductive ChildPhase where
  /-- An uncertain orphan still to be recorded failed. -/
  | owing
  /-- To run, not started by this process. -/
  | waiting
  | working
  /-- It returned and closed nothing. -/
  | left
  /-- Its terminal is in the log. -/
  | settled
  deriving DecidableEq

/-- What the process running a group holds. -/
structure GroupAttempt where
  plan : Plan
  won : Option NodeId
  phase : NodeId → ChildPhase
  returned : List (NodeId × NodeEnd) := []

/-- A group's run: its log as replay derives it, and the process running it, if one does. -/
structure GroupLife where
  run : RunState
  attempt : Option GroupAttempt := none

/-- What is fixed about a group's run: whether each child finishes when it runs to its end, and what
    the group's own close fails with once its children are joined, if it does. -/
structure Outcomes where
  finishes : NodeId → Bool
  refused : Option Failure := none

inductive GroupAct where
  | enter (seq : Nat) (at_ : Int) (p : NodeStartedPayload)
  /-- Records an uncertain orphan failed. -/
  | failUncertain (child : NodeId) (seq : Nat) (at_ : Int)
  | startChild (child : NodeId) (seq : Nat) (at_ : Int) (p : NodeStartedPayload)
  | endChild (child : NodeId) (seq : Nat) (at_ : Int) (finished : Bool) (failure : Failure)
  /-- A child run pauses for a reason, or the run's cancellation unwinds a child. -/
  | leaveChild (child : NodeId) (reason : Option PauseReason)
  | close (seq : Nat) (at_ : Int)
  | cut

/-- A node's terminal. -/
def terminalOf (finished : Bool) (failure : Failure) : NodeEvent :=
  if finished then .finished {} else .failed { failure := failure }

section
variable (g : Group) (default_ : OnInterrupt) (outcomes : Outcomes)

def Group.ids : List NodeId := g.children.map (·.id)

/-- Where a plan puts a child. -/
def Plan.phaseOf (plan : Plan) (child : NodeId) : ChildPhase :=
  if plan.uncertain.contains child then .owing
  else if (plan.toRun.map (·.1)).contains child then .waiting
  else .settled

/-- The group's process, entered on a state. -/
def GroupAttempt.of (state : RunState) : GroupAttempt :=
  let plan := planChildren g.children state default_
  { plan := plan, won := alreadyWon g.children state, phase := plan.phaseOf }

def GroupAttempt.atOnce (a : GroupAttempt) : Option GroupEnd := closesAtOnce g.join a.plan a.won

/-- Whether no orphan is still owed its failure. -/
def GroupAttempt.noneOwing (a : GroupAttempt) : Bool := g.ids.all fun child => a.phase child ≠ .owing

/-- Whether every child returned. -/
def GroupAttempt.allReturned (a : GroupAttempt) : Bool :=
  g.ids.all fun child => a.phase child = .settled || a.phase child = .left

/-- The end the group closes on. -/
def GroupAttempt.end_ (a : GroupAttempt) : GroupEnd :=
  (a.atOnce g).getD (groupEnd g.join g.children a.plan a.returned)

/-- Whether some child of a race won, which cancels the others. -/
def GroupAttempt.cancelled (a : GroupAttempt) : Bool :=
  g.join = .any && a.returned.any fun result => result.2 = .finished

/-- Whether the group records a terminal: a cancellation and a paused child close nothing. -/
def GroupEnd.closes : GroupEnd → Bool
  | .interrupted | .paused _ | .broken => false
  | _ => true

/-- The terminal a group closes with: a group whose children joined is still to pass its own
    close. -/
def closing (end_ : GroupEnd) : NodeEvent :=
  match end_, outcomes.refused with
  | .childrenFailed failed, _ => .failed { failure := .childrenFailed failed }
  | _, some failure => .failed { failure := failure }
  | _, none => .finished {}

/-- One act on a group with a process. -/
def GroupAttempt.step (a : GroupAttempt) (run : RunState) : GroupAct → Option GroupLife
  | .failUncertain child seq at_ =>
    if g.ids.contains child && a.phase child = .owing then
      some
        { run := run.append (nodeEvent seq at_ child (.failed { failure := .uncertain child }))
          attempt := some { a with phase := Function.update a.phase child .settled } }
    else none
  | .startChild child seq at_ p =>
    if a.noneOwing g && (a.atOnce g).isNone && g.ids.contains child &&
        a.phase child = .waiting then
      some
        { run := run.append (nodeEvent seq at_ child (.started p))
          attempt := some { a with phase := Function.update a.phase child .working } }
    else none
  | .endChild child seq at_ finished failure =>
    -- a child ends as it would, or fails because the race it is in was won
    if g.ids.contains child && a.phase child = .working &&
        (finished = outcomes.finishes child || (!finished && a.cancelled g)) then
      some
        { run := run.append (nodeEvent seq at_ child (terminalOf finished failure))
          attempt := some
            { a with
              phase := Function.update a.phase child .settled
              returned := a.returned ++ [(child, if finished then .finished else .failed)] } }
    else none
  | .leaveChild child reason =>
    if g.ids.contains child && a.phase child = .working then
      some
        { run := run
          attempt := some
            { a with
              phase := Function.update a.phase child .left
              returned := a.returned ++ [(child, (reason.map .paused).getD .interrupted)] } }
    else none
  | .close seq at_ =>
    if a.noneOwing g && ((a.atOnce g).isSome || a.allReturned g) then
      if (a.end_ g).closes then
        some { run := run.append (nodeEvent seq at_ g.id (closing outcomes (a.end_ g))) }
      -- the run pauses, its group open
      else some { run := run }
    else none
  | .cut => some { run := run }
  | .enter .. => none

/-- Whether a node closed. -/
def closedNode (run : RunState) (node : NodeId) : Bool :=
  (run.nodes.state node).any fun st => st.isFinished || st.isFailed

def GroupLife.step (s : GroupLife) (act : GroupAct) : Option GroupLife :=
  match s.attempt, act with
  | some a, act => a.step g outcomes s.run act
  | none, .enter seq at_ p =>
    if closedNode s.run g.id then none
    else
      let run := s.run.append (nodeEvent seq at_ g.id (.started p))
      some { run := run, attempt := some (GroupAttempt.of g default_ run) }
  | none, .cut => some s
  | none, _ => none

/-- The states a group's log may start from: neither it nor a child of it has one. -/
def Fresh (run : RunState) : Prop :=
  run.nodes.state g.id = none ∧ ∀ child ∈ g.ids, run.nodes.state child = none

/-! ## What a closed group keeps -/

/-- Whether a child was recorded failed because its work was not safe to repeat. -/
def failedUncertain (run : RunState) (child : NodeId) : Bool :=
  match run.nodes.state child with
  | some (.failed failure _) => failure = .uncertain child
  | _ => false

/-- Whether a group without a cut finishes over children that end so. -/
def uncutFinishes (ends : NodeId → Bool) : Bool :=
  (match g.join with
    | .all => g.ids.all ends
    | .any => g.ids.any ends) && outcomes.refused.isNone

/-- A group that recorded its terminal closed well: no child is left open, it finished only as its
    policy allows, and an uncut run whose children end as they would, one failed as uncertain
    failing, records the same verdict. -/
structure ClosedWell (run : RunState) : Prop where
  settled : ∀ child ∈ g.ids,
    run.nodes.state child = none ∨ run.Finished child ∨ run.Failed child
  all : g.join = .all → run.Finished g.id → ∀ child ∈ g.ids, run.Finished child
  any : g.join = .any → run.Finished g.id → ∃ child ∈ g.ids, run.Finished child
  verdict : ∃ ends : NodeId → Bool,
    (∀ child ∈ g.ids, ends child = outcomes.finishes child ∨
      ends child = false ∧ failedUncertain run child = true) ∧
    (run.Finished g.id ↔ uncutFinishes g outcomes ends = true)

/-- Whether a result decides a race: a failure and a pause leave it live. -/
def NodeEnd.decides : NodeEnd → Bool
  | .failed | .paused _ => false
  | _ => true

/-- Whether a child returned so with no terminal. -/
def NodeEnd.isOpen : NodeEnd → Bool
  | .interrupted | .paused _ => true
  | _ => false

/-- The result that decides a race, of those that returned. -/
def decidedBy (returned : List (NodeId × NodeEnd)) : Option NodeEnd :=
  (returned.map (·.2)).find? NodeEnd.decides

/-- A step over which no group closes on an open child.  A process enters a group its log decides
    already only over orphans it fails itself; and of a race a sibling wins no child returns with no
    terminal, neither before the winner nor after. -/
def LeavesNone (s : GroupLife) : GroupAct → Prop
  | .enter .. =>
    closesAtOnce g.join (planChildren g.children s.run default_) (alreadyWon g.children s.run) ≠
        none →
      ∀ child ∈ g.ids, s.run.isRunning child = true →
        child ∈ uncertainChildren g.children s.run default_
  | .endChild _ _ _ finished _ =>
    finished = true → g.join = .any → ∀ a ∈ s.attempt, decidedBy a.returned = none →
      ∀ result ∈ a.returned, result.2 = .failed
  | .leaveChild .. => g.join = .any → ∀ a ∈ s.attempt, decidedBy a.returned ≠ some .finished
  | _ => True

instance (s : GroupLife) : ∀ act : GroupAct, Decidable (LeavesNone g default_ s act)
  | .enter .. => inferInstanceAs (Decidable (_ ≠ none → ∀ child ∈ g.ids, _ = true → _))
  | .endChild .. => inferInstanceAs (Decidable (_ = true → _ = _ → ∀ a ∈ s.attempt, _ = none → _))
  | .leaveChild .. => inferInstanceAs (Decidable (_ = _ → ∀ a ∈ s.attempt, _ ≠ _))
  | .failUncertain .. | .startChild .. | .close .. | .cut => .isTrue trivial

/-! ## What an attempt holds -/

/-- What the log says of each child, whatever process runs. -/
structure Recorded (run : RunState) : Prop where
  finished : ∀ child ∈ g.ids, run.Finished child → outcomes.finishes child = true
  failed : ∀ child ∈ g.ids, run.Failed child →
    outcomes.finishes child = false ∨ failedUncertain run child = true ∨
      g.join = .any ∧ ∃ winner ∈ g.ids, run.Finished winner
  waits : ∀ child ∈ g.ids, (run.nodes.state child).any NodeState.isWaiting = false

/-- What the log says of a child the process stands so with. -/
def PhaseHolds (run : RunState) (child : NodeId) : ChildPhase → Prop
  | .owing | .working | .left => run.isRunning child = true
  | .waiting => run.nodes.state child = none ∨ run.isRunning child = true
  | .settled => run.Finished child ∨ run.Failed child

/-- A process, its plan and its results, against the log. -/
structure Entered (a : GroupAttempt) (run : RunState) : Prop where
  running : run.isRunning g.id = true
  phases : ∀ child ∈ g.ids, PhaseHolds run child (a.phase child)
  won : ∀ winner ∈ a.won, winner ∈ g.ids ∧ run.Finished winner
  finished : ∀ child ∈ g.ids, run.Finished child →
    a.won.isSome = true ∨ (child, NodeEnd.finished) ∈ a.returned
  planned : ∀ child ∈ a.plan.alreadyFailed, child ∈ g.ids ∧
    (a.phase child = .owing ∨ run.Failed child)
  failed : ∀ child ∈ g.ids, run.Failed child →
    child ∈ a.plan.alreadyFailed ∨ (child, NodeEnd.failed) ∈ a.returned
  owed : ∀ child ∈ g.ids, a.phase child = .owing → child ∈ a.plan.alreadyFailed
  dispatched : ∀ child ∈ g.ids, a.phase child = .waiting ∨ a.phase child = .working ∨
    (∃ end_, (child, end_) ∈ a.returned) → child ∈ a.plan.toRun.map (·.1)
  returned : ∀ result ∈ a.returned, result.1 ∈ g.ids ∧
    (result.2 = .finished ∧ run.Finished result.1 ∨ result.2 = .failed ∧ run.Failed result.1 ∨
      result.2.isOpen = true ∧ a.phase result.1 = .left)
  left : ∀ child ∈ g.ids, a.phase child = .left →
    ∃ end_ : NodeEnd, end_.isOpen = true ∧ (child, end_) ∈ a.returned
  decided : a.atOnce g ≠ none → ∀ child ∈ g.ids, a.phase child ≠ .working ∧
    a.phase child ≠ .left ∧ (a.phase child = .waiting → run.nodes.state child = none)

variable {g default_ outcomes}

theorem ids_ne {child : NodeId} (h : child ∈ g.ids) : child ≠ g.id := by
  rintro rfl
  exact (List.nodup_cons.mp g.once).1 h

/-- A child with a terminal of neither kind. -/
def OpenChild (run : RunState) (child : NodeId) : Prop := ¬ run.Finished child ∧ ¬ run.Failed child

theorem openChild_of_running {run : RunState} {child : NodeId} (h : run.isRunning child = true) :
    OpenChild run child := by
  constructor
  · intro hfinished
    rw [hfinished.alone.2.1] at h
    cases h
  · intro hfailed
    rw [hfailed.alone.2.1] at h
    cases h

section
variable {run t : RunState} {child : NodeId}

/-- One child moved, and nothing else. -/
structure Moved (g : Group) (run t : RunState) (child : NodeId) : Prop where
  mem : child ∈ g.ids
  open_ : OpenChild run child
  others : ∀ other, other ≠ child → t.nodes.state other = run.nodes.state other

theorem Moved.finished (h : Moved g run t child) {other : NodeId} (hne : other ≠ child) :
    t.Finished other ↔ run.Finished other := by
  unfold RunState.Finished
  rw [h.others other hne]

theorem Moved.failed (h : Moved g run t child) {other : NodeId} (hne : other ≠ child) :
    t.Failed other ↔ run.Failed other := by
  unfold RunState.Failed
  rw [h.others other hne]

theorem Moved.running (h : Moved g run t child) {other : NodeId} (hne : other ≠ child) :
    t.isRunning other = run.isRunning other := by
  unfold RunState.isRunning
  rw [h.others other hne]

/-- What had a terminal is not what moved. -/
theorem Moved.ne_of_finished (h : Moved g run t child) {other : NodeId}
    (hf : run.Finished other) : other ≠ child := by
  rintro rfl
  exact h.open_.1 hf

theorem Moved.ne_of_failed (h : Moved g run t child) {other : NodeId} (hf : run.Failed other) :
    other ≠ child := by
  rintro rfl
  exact h.open_.2 hf

/-- **What the log says of the children is kept** by a move that says as much of its own. -/
theorem Recorded.move (h : Recorded g outcomes run) (hm : Moved g run t child)
    (hfinished : t.Finished child → outcomes.finishes child = true)
    (hfailed : t.Failed child → outcomes.finishes child = false ∨ failedUncertain t child = true ∨
      g.join = .any ∧ ∃ winner ∈ g.ids, run.Finished winner)
    (hwaits : (t.nodes.state child).any NodeState.isWaiting = false) :
    Recorded g outcomes t := by
  -- a winner stays one
  have hwinner : (∃ winner ∈ g.ids, run.Finished winner) → ∃ winner ∈ g.ids, t.Finished winner := by
    rintro ⟨winner, hmem, hf⟩
    exact ⟨winner, hmem, (hm.finished (hm.ne_of_finished hf)).mpr hf⟩
  refine ⟨?_, ?_, ?_⟩
  · intro other hother hf
    by_cases hne : other = child
    · subst hne
      exact hfinished hf
    · exact h.finished other hother ((hm.finished hne).mp hf)
  · intro other hother hf
    by_cases hne : other = child
    · subst hne
      rcases hfailed hf with hno | hun | ⟨hany, hwon⟩
      · exact .inl hno
      · exact .inr (.inl hun)
      · exact .inr (.inr ⟨hany, hwinner hwon⟩)
    · rcases h.failed other hother ((hm.failed hne).mp hf) with hno | hun | ⟨hany, hwon⟩
      · exact .inl hno
      · exact .inr (.inl (by rwa [failedUncertain, hm.others other hne]))
      · exact .inr (.inr ⟨hany, hwinner hwon⟩)
  · intro other hother
    by_cases hne : other = child
    · subst hne
      exact hwaits
    · rw [hm.others other hne]
      exact h.waits other hother

/-- **What a process holds is kept** by a move of one open child, beside what it returned. -/
theorem Entered.move {a : GroupAttempt} (h : Entered g a run) (hm : Moved g run t child)
    (phase : ChildPhase) (returned : List (NodeId × NodeEnd))
    (hnotLeft : a.phase child ≠ .left) (hphase : PhaseHolds t child phase)
    (howes : phase ≠ .owing) (hwaits : phase ≠ .waiting)
    (hfinished : t.Finished child → (child, NodeEnd.finished) ∈ returned)
    (hfailed : t.Failed child →
      child ∈ a.plan.alreadyFailed ∨ (child, NodeEnd.failed) ∈ returned)
    (hplanned : child ∈ a.plan.alreadyFailed → t.Failed child)
    (hdispatched : phase = .working ∨ returned ≠ [] → child ∈ a.plan.toRun.map (·.1))
    (hreturned : ∀ result ∈ returned, result.1 = child ∧
      (result.2 = .finished ∧ t.Finished child ∨ result.2 = .failed ∧ t.Failed child ∨
        result.2.isOpen = true ∧ phase = .left))
    (hleft : phase = .left → ∃ end_ : NodeEnd, end_.isOpen = true ∧ (child, end_) ∈ returned)
    (hdecided : a.atOnce g ≠ none → phase ≠ .working ∧ phase ≠ .left) :
    Entered g { a with
      phase := Function.update a.phase child phase
      returned := a.returned ++ returned } t := by
  have hother : ∀ other, other ≠ child →
      Function.update a.phase child phase other = a.phase other :=
    fun other hne => Function.update_of_ne hne ..
  have hself : Function.update a.phase child phase child = phase := Function.update_self ..
  refine ⟨?_, ?_, ?_, ?_, ?_, ?_, ?_, ?_, ?_, ?_, ?_⟩
  · rw [hm.running (Ne.symm (ids_ne hm.mem))]
    exact h.running
  · intro other hmem
    show PhaseHolds t other (Function.update a.phase child phase other)
    by_cases hne : other = child
    · subst hne
      rw [hself]
      exact hphase
    · rw [hother other hne]
      have hphases := h.phases other hmem
      cases hp : a.phase other with
      | owing =>
        rw [hp] at hphases
        exact (hm.running hne).trans hphases
      | working =>
        rw [hp] at hphases
        exact (hm.running hne).trans hphases
      | left =>
        rw [hp] at hphases
        exact (hm.running hne).trans hphases
      | waiting =>
        rw [hp] at hphases
        exact hphases.imp (hm.others other hne).trans (hm.running hne).trans
      | settled =>
        rw [hp] at hphases
        exact hphases.imp (hm.finished hne).mpr (hm.failed hne).mpr
  · intro winner hwon
    obtain ⟨hmem, hf⟩ := h.won winner hwon
    exact ⟨hmem, (hm.finished (hm.ne_of_finished hf)).mpr hf⟩
  · intro other hmem hf
    by_cases hne : other = child
    · subst hne
      exact .inr (List.mem_append_right _ (hfinished hf))
    · exact (h.finished other hmem ((hm.finished hne).mp hf)).imp_right (List.mem_append_left _)
  · intro other hmem
    obtain ⟨hids, howing | hf⟩ := h.planned other hmem
    · refine ⟨hids, ?_⟩
      by_cases hne : other = child
      · subst hne
        exact .inr (hplanned hmem)
      · exact .inl ((hother other hne).trans howing)
    · exact ⟨hids, .inr ((hm.failed (hm.ne_of_failed hf)).mpr hf)⟩
  · intro other hmem hf
    by_cases hne : other = child
    · subst hne
      exact (hfailed hf).imp_right (List.mem_append_right _)
    · exact (h.failed other hmem ((hm.failed hne).mp hf)).imp_right (List.mem_append_left _)
  · intro other hmem howing
    dsimp only at howing ⊢
    have hne : other ≠ child := by
      rintro rfl
      exact howes (hself.symm.trans howing)
    exact h.owed other hmem ((hother other hne).symm.trans howing)
  · intro other hmem hwhere
    dsimp only at hwhere ⊢
    by_cases hne : other = child
    · subst hne
      rw [hself] at hwhere
      rcases hwhere with hw | hw | ⟨end_, hret⟩
      · exact absurd hw hwaits
      · exact hdispatched (.inl hw)
      · rcases List.mem_append.mp hret with hold | hnew
        · exact h.dispatched other hmem (.inr (.inr ⟨end_, hold⟩))
        · exact hdispatched (.inr (List.ne_nil_of_mem hnew))
    · rw [hother other hne] at hwhere
      refine h.dispatched other hmem ?_
      rcases hwhere with hw | hw | ⟨end_, hret⟩
      · exact .inl hw
      · exact .inr (.inl hw)
      · rcases List.mem_append.mp hret with hold | hnew
        · exact .inr (.inr ⟨end_, hold⟩)
        · exact absurd (hreturned _ hnew).1 hne
  · intro result hret
    rcases List.mem_append.mp hret with hold | hnew
    · obtain ⟨hmem, hends⟩ := h.returned result hold
      refine ⟨hmem, ?_⟩
      rcases hends with ⟨he, hf⟩ | ⟨he, hf⟩ | ⟨hopen, hl⟩
      · exact .inl ⟨he, (hm.finished (hm.ne_of_finished hf)).mpr hf⟩
      · exact .inr (.inl ⟨he, (hm.failed (hm.ne_of_failed hf)).mpr hf⟩)
      · have hne : result.1 ≠ child := by
          intro heq
          exact hnotLeft (heq ▸ hl)
        exact .inr (.inr ⟨hopen, (hother _ hne).trans hl⟩)
    · obtain ⟨hid, hends⟩ := hreturned result hnew
      rw [hid]
      dsimp only
      rw [hself]
      exact ⟨hm.mem, hends⟩
  · intro other hmem hl
    dsimp only at hl ⊢
    by_cases hne : other = child
    · subst hne
      obtain ⟨end_, hopen, hin⟩ := hleft (hself.symm.trans hl)
      exact ⟨end_, hopen, List.mem_append_right _ hin⟩
    · obtain ⟨end_, hopen, hin⟩ := h.left other hmem ((hother other hne).symm.trans hl)
      exact ⟨end_, hopen, List.mem_append_left _ hin⟩
  · intro hatOnce other hmem
    dsimp only
    by_cases hne : other = child
    · subst hne
      rw [hself]
      exact ⟨(hdecided hatOnce).1, (hdecided hatOnce).2, fun hw => absurd hw hwaits⟩
    · rw [hother other hne, hm.others other hne]
      exact h.decided hatOnce other hmem

end

/-! ## Entering -/

section
variable {run t : RunState}

theorem Recorded.congr (h : Recorded g outcomes run)
    (hsame : ∀ child ∈ g.ids, t.nodes.state child = run.nodes.state child) :
    Recorded g outcomes t := by
  have hfinished : ∀ child ∈ g.ids, (t.Finished child ↔ run.Finished child) := by
    intro child hmem
    unfold RunState.Finished
    rw [hsame child hmem]
  refine ⟨?_, ?_, ?_⟩
  · intro child hmem hf
    exact h.finished child hmem ((hfinished child hmem).mp hf)
  · intro child hmem hf
    have hf' : run.Failed child := by
      unfold RunState.Failed at hf ⊢
      rwa [hsame child hmem] at hf
    rcases h.failed child hmem hf' with hno | hun | ⟨hany, winner, hwinner, hwon⟩
    · exact .inl hno
    · exact .inr (.inl (by rwa [failedUncertain, hsame child hmem]))
    · exact .inr (.inr ⟨hany, winner, hwinner, (hfinished winner hwinner).mpr hwon⟩)
  · intro child hmem
    rw [hsame child hmem]
    exact h.waits child hmem

/-- A plan reads nothing of the log but its children's states. -/
theorem planChildren_congr (hsame : ∀ child ∈ g.ids, t.nodes.state child = run.nodes.state child) :
    planChildren g.children t default_ = planChildren g.children run default_ := by
  have huncertain : uncertainChildren g.children t default_ =
      uncertainChildren g.children run default_ := by
    unfold uncertainChildren resumePolicies
    have hfilter : g.children.filter (fun node => !isGate node && t.isRunning node.id) =
        g.children.filter fun node => !isGate node && run.isRunning node.id := by
      refine List.filter_congr fun node hnode => ?_
      unfold RunState.isRunning
      rw [hsame node.id (List.mem_map_of_mem hnode)]
    rw [hfilter]
  unfold planChildren
  rw [huncertain]
  dsimp only
  congr 1
  · refine List.filter_congr fun child hchild => ?_
    rw [hsame child hchild]
  · refine List.filterMap_congr fun child hchild => ?_
    rw [hsame child (List.mem_filter.mp hchild).1]

theorem alreadyWon_congr (hsame : ∀ child ∈ g.ids, t.nodes.state child = run.nodes.state child) :
    alreadyWon g.children t = alreadyWon g.children run := by
  have hfind : ∀ ids : List NodeId, (∀ child ∈ ids, t.nodes.state child = run.nodes.state child) →
      ids.find? (fun child => (t.nodes.state child).any NodeState.isFinished) =
        ids.find? fun child => (run.nodes.state child).any NodeState.isFinished := by
    intro ids hids
    induction ids with
    | nil => rfl
    | cons id rest ih =>
      rw [List.find?_cons, List.find?_cons, hids id (List.mem_cons_self ..),
        ih fun child hchild => hids child (List.mem_cons_of_mem _ hchild)]
  exact hfind _ hsame

theorem toRun_ids {child : NodeId} :
    child ∈ (planChildren g.children run default_).toRun.map (·.1) ↔
      child ∈ g.ids ∧ child ∉ uncertainChildren g.children run default_ ∧
        (run.nodes.state child = none ∨ run.isRunning child = true) := by
  constructor
  · intro h
    obtain ⟨⟨id, attempt⟩, hmem, rfl⟩ := List.mem_map.mp h
    exact mem_toRun hmem
  · rintro ⟨hid, hcertain, hopen⟩
    obtain ⟨attempt, hmem⟩ := toRun_of_open hid hcertain hopen
    exact List.mem_map.mpr ⟨_, hmem, rfl⟩

/-- Where a plan puts a child, against the log it was read from. -/
theorem phaseOf_holds (hrec : Recorded g outcomes run) {child : NodeId} (hid : child ∈ g.ids) :
    PhaseHolds run child ((planChildren g.children run default_).phaseOf child) := by
  unfold Plan.phaseOf
  split
  · next huncertain => exact (mem_uncertain (by simpa [planChildren] using huncertain)).2
  · next hcertain =>
    split
    · next hrun => exact (toRun_ids.mp (by simpa using hrun)).2.2
    · next hnot =>
      have hcertain' : child ∉ uncertainChildren g.children run default_ := by
        simpa [planChildren] using hcertain
      have hclosed : ¬ (run.nodes.state child = none ∨ run.isRunning child = true) := by
        intro hopen
        have hmem := toRun_ids.mpr ⟨hid, hcertain', hopen⟩
        exact hnot (by simpa using hmem)
      have hwaits := hrec.waits child hid
      unfold PhaseHolds RunState.Finished RunState.Failed
      unfold RunState.isRunning at hclosed
      cases hstate : run.nodes.state child with
      | none => exact absurd (.inl hstate) hclosed
      | some st =>
        rw [hstate] at hclosed hwaits
        cases st with
        | running attempt => exact absurd (.inr rfl) hclosed
        | finished outcome tokens => exact .inl rfl
        | failed failure tokens => exact .inr rfl
        | waiting on => cases hwaits

theorem phaseOf_owing {child : NodeId}
    (h : (planChildren g.children run default_).phaseOf child = .owing) :
    child ∈ uncertainChildren g.children run default_ := by
  unfold Plan.phaseOf at h
  split at h
  · next huncertain => simpa [planChildren] using huncertain
  · split at h <;> cases h

theorem phaseOf_uncertain {child : NodeId}
    (h : child ∈ uncertainChildren g.children run default_) :
    (planChildren g.children run default_).phaseOf child = .owing := by
  unfold Plan.phaseOf
  rw [if_pos]
  simpa [planChildren] using h

theorem phaseOf_dispatched {child : NodeId}
    (h : (planChildren g.children run default_).phaseOf child = .waiting ∨
      (planChildren g.children run default_).phaseOf child = .working) :
    child ∈ (planChildren g.children run default_).toRun.map (·.1) := by
  unfold Plan.phaseOf at h
  split at h
  · rcases h with h | h <;> cases h
  · split at h
    · next hrun => simpa using hrun
    · rcases h with h | h <;> cases h

/-- **A process that enters a log holds what its plan says of it**, where no orphan it would run
    stands beside a decided group. -/
theorem entered_of (hrec : Recorded g outcomes run) (hrunning : run.isRunning g.id = true)
    (hsettled : closesAtOnce g.join (planChildren g.children run default_)
        (alreadyWon g.children run) ≠ none →
      ∀ child ∈ g.ids, run.isRunning child = true →
        child ∈ uncertainChildren g.children run default_) :
    Entered g (GroupAttempt.of g default_ run) run := by
  have hplace : ∀ child, (planChildren g.children run default_).phaseOf child ≠ .working ∧
      (planChildren g.children run default_).phaseOf child ≠ .left := by
    intro child
    unfold Plan.phaseOf
    constructor
    · split_ifs <;> exact fun h => (by cases h)
    · split_ifs <;> exact fun h => (by cases h)
  refine ⟨hrunning, fun child hid => phaseOf_holds hrec hid, ?_, ?_, ?_, ?_, ?_, ?_, ?_, ?_, ?_⟩
  · intro winner hwon
    have hf : run.Finished winner := by
      have hfound := List.find?_some (p := fun child =>
        (run.nodes.state child).any NodeState.isFinished) hwon
      exact hfound
    exact ⟨List.mem_of_find?_eq_some hwon, hf⟩
  · intro child hid hf
    refine .inl ?_
    show (alreadyWon g.children run).isSome = true
    rw [alreadyWon, List.find?_isSome]
    exact ⟨child, hid, hf⟩
  · intro child hmem
    obtain ⟨hid, huncertain | hf⟩ := mem_alreadyFailed.mp hmem
    · exact ⟨hid, .inl (phaseOf_uncertain huncertain)⟩
    · exact ⟨hid, .inr hf⟩
  · intro child hid hf
    exact .inl (mem_alreadyFailed.mpr ⟨hid, .inr hf⟩)
  · intro child hid howing
    exact mem_alreadyFailed.mpr ⟨hid, .inl (phaseOf_owing howing)⟩
  · intro child hid hwhere
    rcases hwhere with hw | hw | ⟨end_, hret⟩
    · exact phaseOf_dispatched (.inl hw)
    · exact phaseOf_dispatched (.inr hw)
    · cases hret
  · intro result hret
    cases hret
  · exact fun child _ hl => absurd hl (hplace child).2
  · intro hdecided child hid
    refine ⟨(hplace child).1, (hplace child).2, ?_⟩
    intro hwaiting
    obtain ⟨-, hcertain, hnone | horphan⟩ := toRun_ids.mp (phaseOf_dispatched (.inl hwaiting))
    · exact hnone
    · exact absurd (hsettled hdecided child hid horphan) hcertain

end

/-! ## Closing -/

/-- What finishes and fails, settled: the failures, in order. -/
theorem settleAll_eq {results : List (NodeId × NodeEnd)} (ends : ChildEnds)
    (h : ∀ result ∈ results, result.2 = .finished ∨ result.2 = .failed) :
    settleAll ends results = some { ends with
      failed := ends.failed ++ (results.filter fun result => result.2 = .failed).map (·.1) } := by
  induction results generalizing ends with
  | nil => simp [settleAll]
  | cons result rest ih =>
    obtain ⟨child, end_⟩ := result
    have hih := fun ends => ih ends fun r hr => h r (List.mem_cons_of_mem _ hr)
    rcases h _ (List.mem_cons_self ..) with hend | hend
    · obtain rfl : end_ = .finished := hend
      simp [settleAll, hih]
    · obtain rfl : end_ = .failed := hend
      simp [settleAll, hih]

/-- Children that finish or fail leave a `join: all` group two ends. -/
theorem joinAll_eq (count : Nat) {results : List (NodeId × NodeEnd)}
    (h : ∀ result ∈ results, result.2 = .finished ∨ result.2 = .failed) :
    (joinAll count results = .childrenFinished count ∧
        ∀ result ∈ results, result.2 = .finished) ∨
      ∃ failed, joinAll count results = .childrenFailed failed ∧
        ∃ result ∈ results, result.2 = .failed := by
  rw [joinAll, settleAll_eq {} h]
  by_cases hall : ∀ result ∈ results, result.2 = .finished
  · have hnil : (results.filter fun result => result.2 = .failed) = [] := by
      rw [List.filter_eq_nil_iff]
      intro result hres
      simp [hall result hres]
    simp only [hnil]
    exact .inl ⟨rfl, hall⟩
  · push Not at hall
    obtain ⟨result, hres, hne⟩ := hall
    have hfailed := (h result hres).resolve_left hne
    have hmem : result ∈ results.filter fun result => result.2 = .failed :=
      List.mem_filter.mpr ⟨hres, by simpa using hfailed⟩
    have hsome : ((results.filter fun result => result.2 = .failed).map (·.1)).isEmpty = false := by
      rw [List.isEmpty_eq_false_iff]
      exact List.ne_nil_of_mem (List.mem_map_of_mem hmem)
    refine .inr ⟨(results.filter fun result => result.2 = .failed).map (·.1), ?_, result, hres,
      hfailed⟩
    simp [hsome]

/-- A race of children that finish or fail is won by one that finishes. -/
theorem raceChildren_eq {returned : List (NodeId × NodeEnd)} (failures : List NodeId)
    (h : ∀ result ∈ returned, result.2 = .finished ∨ result.2 = .failed) :
    ∃ winner lost, raceChildren { failures := failures } returned =
        some { winner := winner, failures := lost } ∧
      (winner.isSome = true ↔ ∃ result ∈ returned, result.2 = .finished) := by
  induction returned generalizing failures with
  | nil => exact ⟨none, failures, rfl, by simp⟩
  | cons result rest ih =>
    obtain ⟨child, end_⟩ := result
    rcases h _ (List.mem_cons_self ..) with hend | hend
    · obtain rfl : end_ = .finished := hend
      exact ⟨some child, failures, rfl, by simp⟩
    · obtain rfl : end_ = .failed := hend
      obtain ⟨winner, lost, hrace, hwon⟩ := ih (failures ++ [child])
        fun r hr => h r (List.mem_cons_of_mem _ hr)
      refine ⟨winner, lost, hrace, hwon.trans ?_⟩
      simp

/-- Children that finish or fail leave a `join: any` group two ends. -/
theorem joinAny_eq (alreadyFailed : List NodeId) {returned : List (NodeId × NodeEnd)}
    (h : ∀ result ∈ returned, result.2 = .finished ∨ result.2 = .failed) :
    (∃ winner, joinAny alreadyFailed returned = .succeededFirst winner ∧
        ∃ result ∈ returned, result.2 = .finished) ∨
      ∃ failed, joinAny alreadyFailed returned = .childrenFailed failed ∧
        ∀ result ∈ returned, result.2 = .failed := by
  obtain ⟨winner, lost, hrace, hwon⟩ := raceChildren_eq alreadyFailed h
  rw [joinAny, hrace]
  cases winner with
  | some winner => exact .inl ⟨winner, rfl, hwon.mp rfl⟩
  | none =>
    refine .inr ⟨lost, rfl, ?_⟩
    intro result hres
    refine (h result hres).resolve_left fun hfin => ?_
    have hsome := hwon.mpr ⟨result, hres, hfin⟩
    cases hsome

/-- A child left open keeps a `join: all` group open. -/
theorem settleAll_open {results : List (NodeId × NodeEnd)} {ends settled : ChildEnds}
    (h : settleAll ends results = some settled)
    (hopen : ends.interrupted = true ∨ ends.childPaused.isSome = true ∨
      ∃ result ∈ results, result.2.isOpen = true) :
    settled.interrupted = true ∨ settled.childPaused.isSome = true := by
  induction results generalizing ends with
  | nil =>
    obtain rfl := Option.some.inj h
    simpa using hopen
  | cons result rest ih =>
    obtain ⟨child, end_⟩ := result
    cases end_ with
    | asked => cases h
    | interrupted => exact ih h (.inl rfl)
    | paused reason =>
      refine ih h (.inr (.inl ?_))
      cases ends.childPaused <;> rfl
    | finished => exact ih h (by simpa [NodeEnd.isOpen] using hopen)
    | failed => exact ih h (by simpa [NodeEnd.isOpen] using hopen)

theorem joinAll_open (count : Nat) {results : List (NodeId × NodeEnd)}
    (hopen : ∃ result ∈ results, result.2.isOpen = true) :
    (joinAll count results).closes = false := by
  unfold joinAll
  cases hsettled : settleAll {} results with
  | none => rfl
  | some ends =>
    dsimp only
    split
    · rfl
    · next hcalm =>
      obtain ⟨reason, hpaused⟩ := Option.isSome_iff_exists.mp
        ((settleAll_open hsettled (.inr (.inr hopen))).resolve_left hcalm)
      rw [hpaused]
      rfl

/-- A child left open keeps a race open that no child won. -/
theorem raceChildren_open {returned : List (NodeId × NodeEnd)} {race ended : Race}
    (h : raceChildren race returned = some ended) (hwinner : race.winner = none)
    (hnone : decidedBy returned ≠ some .finished)
    (hopen : race.childPaused.isSome = true ∨ ∃ result ∈ returned, result.2.isOpen = true) :
    ended.winner = none ∧ (ended.interrupted = true ∨ ended.childPaused.isSome = true) := by
  induction returned generalizing race with
  | nil =>
    obtain rfl := Option.some.inj h
    exact ⟨hwinner, .inr (hopen.resolve_right (by simp))⟩
  | cons result rest ih =>
    obtain ⟨child, end_⟩ := result
    cases end_ with
    | asked => cases h
    | finished => exact absurd rfl hnone
    | interrupted =>
      obtain rfl := Option.some.inj h
      exact ⟨hwinner, .inl rfl⟩
    | paused reason =>
      refine ih h hwinner hnone (.inl ?_)
      show (race.childPaused <|> some reason).isSome = true
      cases race.childPaused <;> rfl
    | failed => exact ih h hwinner hnone (by simpa [NodeEnd.isOpen] using hopen)

theorem joinAny_open (alreadyFailed : List NodeId) {returned : List (NodeId × NodeEnd)}
    (hnone : decidedBy returned ≠ some .finished)
    (hopen : ∃ result ∈ returned, result.2.isOpen = true) :
    (joinAny alreadyFailed returned).closes = false := by
  unfold joinAny
  cases hrace : raceChildren { failures := alreadyFailed } returned with
  | none => rfl
  | some race =>
    obtain ⟨hwinner, hends⟩ := raceChildren_open hrace rfl hnone (.inr hopen)
    dsimp only
    split
    · rfl
    · next hcalm =>
      obtain ⟨reason, hpaused⟩ := Option.isSome_iff_exists.mp (hends.resolve_left hcalm)
      rw [hwinner, hpaused]
      rfl

/-- A race a child won holds no child that returned with no terminal. -/
def Clean (g : Group) (a : GroupAttempt) : Prop :=
  g.join = .any → decidedBy a.returned = some .finished →
    ∀ result ∈ a.returned, result.2.isOpen = false

section
variable {run : RunState} {a : GroupAttempt}

/-- **A group that records a terminal has left no child it ran.** -/
theorem Entered.allSettled (h : Entered g a run) (hclean : Clean g a)
    (hcloses : (a.end_ g).closes = true) (hatOnce : a.atOnce g = none)
    (hall : ∀ child ∈ g.ids, a.phase child = .settled ∨ a.phase child = .left) :
    ∀ child ∈ g.ids, a.phase child = .settled := by
  intro child hid
  refine (hall child hid).resolve_right fun hleft => ?_
  obtain ⟨end_, hopen, hret⟩ := h.left child hid hleft
  rw [GroupAttempt.end_, hatOnce, Option.getD_none] at hcloses
  cases hjoin : g.join with
  | any =>
    rw [hjoin, groupEnd] at hcloses
    have hnone : decidedBy a.returned ≠ some .finished := fun hwon => by
      rw [hclean hjoin hwon _ hret] at hopen
      cases hopen
    rw [joinAny_open _ hnone ⟨_, hret, hopen⟩] at hcloses
    cases hcloses
  | all =>
    rw [hjoin, groupEnd] at hcloses
    obtain ⟨⟨id, attempt⟩, hrun, heq⟩ :=
      List.mem_map.mp (h.dispatched child hid (.inr (.inr ⟨end_, hret⟩)))
    obtain rfl : id = child := heq
    have hsome : (a.returned.find? fun result => result.1 = id).isSome = true := by
      rw [List.find?_isSome]
      exact ⟨_, hret, by simp⟩
    obtain ⟨result, hfind⟩ := Option.isSome_iff_exists.mp hsome
    have hresult : result.1 = id := of_decide_eq_true (List.find?_some hfind :)
    have hrunning := h.phases id hid
    rw [hleft] at hrunning
    have hstill := openChild_of_running hrunning
    -- a child still Running returned with no terminal, however often the join looks it up
    have hopen' : result.2.isOpen = true := by
      rcases (h.returned result (List.mem_of_find?_eq_some hfind)).2 with
        ⟨-, hf⟩ | ⟨-, hf⟩ | ⟨ho, -⟩
      · exact absurd (hresult ▸ hf) hstill.1
      · exact absurd (hresult ▸ hf) hstill.2
      · exact ho
    rw [joinAll_open _ ⟨result, List.mem_filterMap.mpr ⟨_, hrun, hfind⟩, hopen'⟩] at hcloses
    cases hcloses

/-- Where a process that closes stands with its children. -/
structure Closable (g : Group) (a : GroupAttempt) : Prop where
  paid : ∀ child ∈ g.ids, a.phase child ≠ .owing
  done : a.atOnce g ≠ none ∨ ∀ child ∈ g.ids, a.phase child = .settled

/-- **A group that closes leaves no child open.** -/
theorem Entered.settled (h : Entered g a run) (hc : Closable g a) {child : NodeId}
    (hid : child ∈ g.ids) :
    run.nodes.state child = none ∨ run.Finished child ∨ run.Failed child := by
  have hphases := h.phases child hid
  rcases hc.done with hdecided | hall
  · cases hp : a.phase child with
    | owing => exact absurd hp (hc.paid child hid)
    | waiting => exact .inl ((h.decided hdecided child hid).2.2 hp)
    | working => exact absurd hp (h.decided hdecided child hid).1
    | left => exact absurd hp (h.decided hdecided child hid).2.1
    | settled =>
      rw [hp] at hphases
      exact .inr hphases
  · rw [hall child hid] at hphases
    exact .inr hphases

theorem Entered.returned_ends (h : Entered g a run)
    (hall : ∀ child ∈ g.ids, a.phase child = .settled) :
    ∀ result ∈ a.returned, result.2 = .finished ∧ run.Finished result.1 ∨
      result.2 = .failed ∧ run.Failed result.1 := by
  intro result hret
  obtain ⟨hid, hends⟩ := h.returned result hret
  rcases hends with hf | hf | ⟨-, hleft⟩
  · exact .inl hf
  · exact .inr hf
  · rw [hall _ hid] at hleft
    cases hleft

/-- A `join: all` group finishes when every child did, and otherwise fails, one having failed. -/
theorem Entered.end_all (h : Entered g a run) (hc : Closable g a) (hjoin : g.join = .all) :
    ((a.end_ g).isFinished = true ∧ ∀ child ∈ g.ids, run.Finished child) ∨
      ((∃ failed, a.end_ g = .childrenFailed failed) ∧ ∃ child ∈ g.ids, run.Failed child) := by
  unfold GroupAttempt.end_ GroupAttempt.atOnce groupEnd closesAtOnce
  simp only [hjoin]
  by_cases hnil : a.plan.alreadyFailed.isEmpty = true
  · have hatOnce : a.atOnce g = none := by
      unfold GroupAttempt.atOnce closesAtOnce
      rw [hjoin]
      exact if_pos hnil
    have hall := hc.done.resolve_left fun hne => hne hatOnce
    rw [if_pos hnil, Option.getD_none]
    have hresults : ∀ result ∈ a.plan.toRun.filterMap
        (fun child => a.returned.find? fun result => result.1 = child.1), result ∈ a.returned := by
      intro result hres
      obtain ⟨child, -, hfind⟩ := List.mem_filterMap.mp hres
      exact List.mem_of_find?_eq_some hfind
    rcases joinAll_eq g.children.length fun result hres =>
      (h.returned_ends hall result (hresults result hres)).imp And.left And.left with
        ⟨hend, hfinished⟩ | ⟨failed, hend, hfail⟩
    · rw [hend]
      refine .inl ⟨rfl, ?_⟩
      intro child hid
      have hclosed := h.phases child hid
      rw [hall child hid] at hclosed
      rcases hclosed with hf | hf
      · exact hf
      · -- a failed child returned a failure, which the join reads
        exfalso
        have hret := (h.failed child hid hf).resolve_left fun hmem => by
          rw [List.isEmpty_iff.mp hnil] at hmem
          cases hmem
        obtain ⟨⟨id, attempt⟩, hrun, heq⟩ :=
          List.mem_map.mp (h.dispatched child hid (.inr (.inr ⟨_, hret⟩)))
        have hsome : (a.returned.find? fun result => result.1 = id).isSome = true := by
          rw [List.find?_isSome]
          exact ⟨_, hret, by simpa using heq.symm⟩
        obtain ⟨result, hfind⟩ := Option.isSome_iff_exists.mp hsome
        have hfound := List.find?_some hfind
        have hid' : result.1 = child := (of_decide_eq_true hfound).trans heq
        have hres := hfinished result (List.mem_filterMap.mpr ⟨_, hrun, hfind⟩)
        rcases h.returned_ends hall result (List.mem_of_find?_eq_some hfind) with
          ⟨-, hdone⟩ | ⟨hno, -⟩
        · exact (hid' ▸ hdone).alone.1 hf
        · rw [hres] at hno
          cases hno
    · rw [hend]
      obtain ⟨result, hres, hfailed⟩ := hfail
      have hid := (h.returned result (hresults result hres)).1
      rcases h.returned_ends hall result (hresults result hres) with ⟨he, -⟩ | ⟨-, hf⟩
      · rw [hfailed] at he
        cases he
      · exact .inr ⟨⟨_, rfl⟩, result.1, hid, hf⟩
  · rw [if_neg hnil, Option.getD_some]
    rw [List.isEmpty_iff] at hnil
    obtain ⟨child, hmem⟩ := List.exists_mem_of_ne_nil _ hnil
    obtain ⟨hid, howing | hf⟩ := h.planned child hmem
    · exact absurd howing (hc.paid child hid)
    · exact .inr ⟨⟨_, rfl⟩, child, hid, hf⟩

/-- A `join: any` group finishes when some child did, and otherwise fails, every child having
    failed. -/
theorem Entered.end_any (h : Entered g a run) (hc : Closable g a) (hjoin : g.join = .any) :
    ((a.end_ g).isFinished = true ∧ ∃ child ∈ g.ids, run.Finished child) ∨
      ((∃ failed, a.end_ g = .childrenFailed failed) ∧ ∀ child ∈ g.ids, run.Failed child) := by
  unfold GroupAttempt.end_ GroupAttempt.atOnce groupEnd closesAtOnce
  simp only [hjoin]
  cases hwon : a.won with
  | some winner =>
    rw [Option.map_some, Option.getD_some]
    exact .inl ⟨rfl, winner, h.won winner hwon⟩
  | none =>
    rw [Option.map_none, Option.getD_none]
    have hatOnce : a.atOnce g = none := by
      unfold GroupAttempt.atOnce closesAtOnce
      rw [hjoin, hwon]
      rfl
    have hall := hc.done.resolve_left fun hne => hne hatOnce
    rcases joinAny_eq a.plan.alreadyFailed
        fun result hret => (h.returned_ends hall result hret).imp And.left And.left with
      ⟨winner, hend, result, hret, hfin⟩ | ⟨failed, hend, hfail⟩
    · rw [hend]
      have hid := (h.returned result hret).1
      rcases h.returned_ends hall result hret with ⟨-, hf⟩ | ⟨hno, -⟩
      · exact .inl ⟨rfl, result.1, hid, hf⟩
      · rw [hfin] at hno
        cases hno
    · rw [hend]
      refine .inr ⟨⟨_, rfl⟩, ?_⟩
      intro child hid
      have hclosed := h.phases child hid
      rw [hall child hid] at hclosed
      rcases hclosed with hf | hf
      · have hret := (h.finished child hid hf).resolve_left (by simp [hwon])
        have hno := hfail _ hret
        cases hno
      · exact hf

/-- Children that finish or fail leave a group two ends. -/
theorem Entered.end_cases (h : Entered g a run) (hc : Closable g a) :
    (a.end_ g).isFinished = true ∨ ∃ failed, a.end_ g = .childrenFailed failed := by
  cases hjoin : g.join with
  | all => exact (h.end_all hc hjoin).imp And.left And.left
  | any => exact (h.end_any hc hjoin).imp And.left And.left

end

/-- A child that failed of itself, or that no policy failed, would not finish. -/
theorem ends_of_failed {run : RunState} (hrec : Recorded g outcomes run) {child : NodeId}
    (hid : child ∈ g.ids) (hf : run.Failed child)
    (hnone : g.join = .any → ∀ winner ∈ g.ids, ¬ run.Finished winner) :
    outcomes.finishes child = false ∨ failedUncertain run child = true := by
  rcases hrec.failed child hid hf with hno | hun | ⟨hany, winner, hwinner, hwon⟩
  · exact .inl hno
  · exact .inr hun
  · exact absurd hwon (hnone hany winner hwinner)

/-- How the children of a run end: as they would, and failing where a policy failed them. -/
def endsOf (outcomes : Outcomes) (run : RunState) (child : NodeId) : Bool :=
  outcomes.finishes child && !failedUncertain run child

theorem endsOf_finished {run : RunState} (hrec : Recorded g outcomes run) {child : NodeId}
    (hid : child ∈ g.ids) (hf : run.Finished child) : endsOf outcomes run child = true := by
  have hcertain : failedUncertain run child = false := by
    unfold failedUncertain
    split
    · next failure tokens hstate => simp [RunState.Finished, hstate, NodeState.isFinished] at hf
    · rfl
  rw [endsOf, hrec.finished child hid hf, hcertain]
  rfl

theorem endsOf_failed {run : RunState} (hrec : Recorded g outcomes run) {child : NodeId}
    (hid : child ∈ g.ids) (hf : run.Failed child)
    (hnone : g.join = .any → ∀ winner ∈ g.ids, ¬ run.Finished winner) :
    endsOf outcomes run child = false := by
  rcases ends_of_failed hrec hid hf hnone with hno | hun
  · rw [endsOf, hno, Bool.false_and]
  · rw [endsOf, hun, Bool.not_true, Bool.and_false]

/-- **The children's own ends decide the join** as an uncut run reads them. -/
theorem Entered.end_uncut {run : RunState} {a : GroupAttempt} (h : Entered g a run)
    (hc : Closable g a) (hrec : Recorded g outcomes run) :
    ((a.end_ g).isFinished && outcomes.refused.isNone) =
      uncutFinishes g outcomes (endsOf outcomes run) := by
  unfold uncutFinishes
  congr 1
  cases hjoin : g.join with
  | all =>
    rcases h.end_all hc hjoin with ⟨hend, hfinished⟩ | ⟨⟨failed, hend⟩, child, hid, hf⟩
    · rw [hend]
      symm
      rw [List.all_eq_true]
      intro child hid
      exact endsOf_finished hrec hid (hfinished child hid)
    · rw [hend]
      symm
      rw [GroupEnd.isFinished_childrenFailed, List.all_eq_false]
      refine ⟨child, hid, ?_⟩
      rw [endsOf_failed hrec hid hf fun hany => by rw [hjoin] at hany; cases hany]
      exact Bool.false_ne_true
  | any =>
    rcases h.end_any hc hjoin with ⟨hend, child, hid, hf⟩ | ⟨⟨failed, hend⟩, hfailed⟩
    · rw [hend]
      symm
      rw [List.any_eq_true]
      exact ⟨child, hid, endsOf_finished hrec hid hf⟩
    · rw [hend]
      symm
      rw [GroupEnd.isFinished_childrenFailed, List.any_eq_false]
      intro child hid
      rw [endsOf_failed hrec hid (hfailed child hid) fun _ winner hwinner =>
        (hfailed winner hwinner).alone.1]
      exact Bool.false_ne_true

end

end Yunta
