/-
  The cycle of sessions one task is worked in.

  1. **An attempt** — one session, judged when it ends against the scope in force and the request it
     left.  `stepOf` says whether the cycle stops, goes on because the engine granted scope, or
     leaves the task unmet.

  2. **The cycle** — `next` takes one attempt, `run` the whole cycle, and `sessions` lists the cycle
     as it stands when each session opens.

  3. **Main result** — `cycle_spends`: under a cap of `c` grants the cycle ends within `c + 3`
     sessions.  Each session after the first follows a grant that widens the scope, but one owed for
     a pending request and one for a conversation that outgrew its window, exactly where no attempt
     the cycle goes on from is granted only what its scope selects already.

  The bound is a budget (`Cycle.left`): each session after the first spends a grant below the cap,
  the first pending request, or the first overflow.
-/
import Yunta.Criteria.Memo
import Yunta.Events.Failure
import Yunta.Ledgers.Scope
import Yunta.Scope.Request
import Yunta.Tasks.Document

set_option linter.unusedVariables false

namespace Yunta.TaskCycle

open Expansion
open Criteria (Unanswered)

/-! ## What an attempt leaves -/

/-- Why a session that failed did. -/
inductive FailureCause where
  | refused (cause : RefusalCause)
  | limit (resetsAt : Option Int)
  deriving DecidableEq

/-- How a session's dispatch ended. -/
inductive DispatchOutcome where
  | completed (summary : String)
  | failed (error : String) (cause : FailureCause)
  /-- No terminal event at all. -/
  | crashed
  | cancelled
  | budgetExceeded
  deriving DecidableEq

/-- What a session left its attempt's close to judge: each criterion that ran with what it printed,
    the guards left waiting, what a command answers on the tree, the files touched, the writes the
    fence refused, the request left in the checkout, the paths changed outside a ceiling, and the
    criterion declared impossible. -/
structure Left where
  checked : List (CriterionResult × Option String)
  waiting : List String := []
  answers : String → Int × Option String
  touched : List PathBuf := []
  refused : List String := []
  request : Option ScopeExpansionRequest := none
  outside : List ScopeGlob → List PathBuf
  declared : Option CriterionUnpassablePayload := none

/-- One session of the cycle: the conversation it ended in, how its dispatch ended, whether the
    token fired before its judgement was over, the grants the batch's other tasks were given
    before it, and what it left. -/
structure Worked where
  session : Option SessionId
  dispatch : DispatchOutcome
  cancelled : Bool := false
  others : Nat := 0
  left : Left

/-- What an attempt's judgement reads of the criteria: the commands, and what they printed. -/
def Left.sitting (task : Task) (left : Left) : Sitting where
  criteria := task.criteria.map (·.cmd)
  answers := left.answers
  runs := left.checked.map fun (result, output) => ⟨result.cmd, result.exitCode, output⟩
  touched := left.touched
  refused := left.refused

/-- The decision of an outcome. -/
def decisionOf (outcome : Option Outcome) : Option Decision := outcome.map (·.decision)

structure AttemptRecord where
  attempt : Nat
  session : Option SessionId
  dispatch : DispatchOutcome
  postCheck : List Expansion.CriterionRun
  postResults : List CriterionResult
  violations : List PathBuf
  succeeded : Bool
  scopeExpansion : Option Outcome
  withdrawn : Option (List ScopeGlob)
  deriving DecidableEq

namespace AttemptRecord

/-- Whether the request this attempt left waits for a person's decision. -/
def escalated (record : AttemptRecord) : Bool :=
  match decisionOf record.scopeExpansion with
  | some (.escalate ..) => true
  | _ => false

/-- Whether this attempt's session outgrew the model's context window. -/
def contextExhausted (record : AttemptRecord) : Bool :=
  match record.dispatch with
  | .failed _ (.refused .contextExhausted) => true
  | _ => false

/-- Whether a criterion of the attempt is red. -/
def red (record : AttemptRecord) : Bool := record.postCheck.any fun run => run.exitCode ≠ 0

/-- Whether the attempt left its request pending under a red criterion, and no earlier one left one
    pending. -/
def asked (record : AttemptRecord) (earlier : List AttemptRecord) : Bool :=
  record.escalated && record.red && !earlier.any (·.escalated)

/-- Whether the conversation outgrew its window, and no earlier one did. -/
def overflowed (record : AttemptRecord) (earlier : List AttemptRecord) : Bool :=
  record.contextExhausted && !earlier.any (·.contextExhausted)

/-- Whether a fresh session takes the task on after this attempt. -/
def freshSessionOwed (record : AttemptRecord) (earlier : List AttemptRecord) : Bool :=
  record.asked earlier || record.overflowed earlier

/-- The paths the engine granted on this attempt's request. -/
def granted (record : AttemptRecord) : Option (List ScopeGlob) :=
  match decisionOf record.scopeExpansion with
  | some (.grant paths _) => some paths
  | _ => none

end AttemptRecord

/-! ## The judgement -/

structure Judgement where
  criteria : List (CriterionResult × Option String)
  waiting : List String
  violations : List PathBuf
  request : Option Outcome
  unpassable : Option CriterionUnpassablePayload

/-- Whether work judged so closes its task: criteria pass, nothing waits, and nothing it changed
    lies outside its scope. -/
def closes (criteria : List (CriterionResult × Option String)) (waiting : List String)
    (violations : List PathBuf) : Bool :=
  (criteria.all fun run => run.1.exitCode = 0) && waiting.isEmpty && violations.isEmpty

def Judgement.closes (j : Judgement) : Bool :=
  TaskCycle.closes j.criteria j.waiting j.violations

/-- The scope in force for a task's work: its own, then what was granted before the attempt. -/
def scopeInForce (task : Task) (grants : List ScopeGlob) : List ScopeGlob := task.scope ++ grants

/-- The paths an outcome grants: none unless its decision is a grant. -/
def pathsGranted (outcome : Option Outcome) : List ScopeGlob :=
  match decisionOf outcome with
  | some (.grant paths _) => paths
  | _ => []

section
variable {builds : List ScopeGlob → Bool} (selects : ScopeGlob → String → Bool)
  (alphanumeric : Char → Bool) (task : Task) (adapter : AdapterId) (bounds : Bounds builds)

/-- `judge`, as an attempt closes: the request is decided first, and the work is held to the scope
    in force with what it grants. -/
def judge (inForce : List ScopeGlob) (window : GrantWindow) (left : Left) :
    Judgement × GrantWindow :=
  let (request, window) :=
    decideRequest selects alphanumeric (left.sitting task) bounds .commit window left.request
  (⟨left.checked, left.waiting, left.outside (inForce ++ pathsGranted request), request,
    left.declared⟩, window)

/-! ## The step an attempt tells -/

inductive TaskOutcome where
  | done
  | blocked (cause : TaskCause)
  | interrupted
  deriving DecidableEq

/-- What one attempt tells the cycle to do next. -/
inductive AttemptStep where
  | stop (record : AttemptRecord) (outcome : TaskOutcome) (needsHumanDecision : Bool)
  /-- The engine widened the task's scope: another attempt is the first that may write there. -/
  | again (record : AttemptRecord)
  | unmet (record : AttemptRecord)
  deriving DecidableEq

/-- The cause a session that ended in a failure stops the cycle with. -/
def failureStop : DispatchOutcome → Option TaskCause
  | .failed error (.refused cause) => some (.sessionRefused ⟨adapter, cause, error⟩)
  | .failed error (.limit resetsAt) => some (.sessionLimited ⟨resetsAt, error⟩)
  | _ => none

/-- The death of a session that ended without reporting anything. -/
def sessionDeathOf : DispatchOutcome → Option TaskCause
  | .crashed => some (.sessionDied adapter)
  | _ => none

/-- The cause an attempt that did not close stops the cycle on, if one does. -/
def unclosedCause (results : List CriterionResult) (dispatch : DispatchOutcome) :
    Option TaskCause :=
  let unrunnable := results.filter fun result => (Unanswered.of result.exitCode).isSome
  if !unrunnable.isEmpty then some (.unrunnable unrunnable)
  else (sessionDeathOf adapter dispatch).or (failureStop adapter dispatch)

/-- The paths an escalation leaves unanswered when its task closes. -/
def withdrawnOf (succeeded : Bool) (outcome : Option Outcome) : Option (List ScopeGlob) :=
  match decisionOf outcome with
  | some (.escalate paths _) => if succeeded then some paths else none
  | _ => none

/-- The attempt as its judgement leaves it on record. -/
def recordOf (attempt : Nat) (worked : Worked) (j : Judgement) : AttemptRecord where
  attempt := attempt
  session := worked.session
  dispatch := worked.dispatch
  postCheck := (worked.left.sitting task).runs
  postResults := j.criteria.map (·.1)
  violations := j.violations
  succeeded := j.closes
  scopeExpansion := j.request
  withdrawn := withdrawnOf j.closes j.request

/-- The step that ends the cycle without closing its task: a request still pending is a person's. -/
def stopUnclosed (record : AttemptRecord) (cause : TaskCause) : AttemptStep :=
  if record.escalated then .stop record (.blocked .scopeDecisionOwed) true
  else .stop record (.blocked cause) false

/-- **`step_of`**: the cycle closes, stops on a cause no retry can pass, or goes on. -/
def stepOf (record : AttemptRecord) (unpassable : Option CriterionUnpassablePayload) :
    AttemptStep :=
  if record.succeeded then .stop record .done false
  else
    match unpassable with
    | some declared => .stop record (.blocked (.criterionUnpassable declared)) false
    | none =>
      match unclosedCause adapter record.postResults record.dispatch with
      -- An overflow leaves its work to the cycle, which owes it one fresh session.
      | some (.sessionRefused ⟨_, .contextExhausted, _⟩) => .unmet record
      | some cause => stopUnclosed record cause
      | none => if record.granted.isSome then .again record else .unmet record

/-- An attempt a cancellation cut: nothing was checked. -/
def interrupted (attempt : Nat) (session : Option SessionId) : AttemptStep :=
  .stop ⟨attempt, session, .cancelled, [], [], [], false, none, none⟩ .interrupted false

/-! ## The cycle -/

/-- A session the next attempt picks back up, and the answer it is told. -/
structure Continuing where
  session : SessionId
  answer : ScopeAnswer
  deriving DecidableEq

/-- A cycle between two attempts. -/
structure Cycle where
  attempts : List AttemptRecord := []
  granted : List ScopeGlob
  continuing : Option Continuing := none
  window : GrantWindow

structure TaskCycleReport where
  attempts : List AttemptRecord
  outcome : TaskOutcome
  needsHumanDecision : Bool
  deriving DecidableEq

/-- How a cycle ended: with its report, or with an error of the engine's. -/
inductive Ended where
  | report (report : TaskCycleReport)
  | error
  deriving DecidableEq

/-- What the last attempt left: the criteria still red, and the paths outside the scope. -/
def unmetCause (attempts : List AttemptRecord) : TaskCause :=
  let last := attempts.getLast?
  .unmet attempts.length ((last.map fun a => a.postResults.filter (·.exitCode ≠ 0)).getD [])
    ((last.map (·.violations)).getD [])

/-- The report of a cycle whose attempts ended unmet. -/
def unmetReport (attempts : List AttemptRecord) : TaskCycleReport :=
  let owed := attempts.getLast?.any (·.escalated)
  let cause :=
    if owed then .scopeDecisionOwed
    else (attempts.getLast?.bind fun last => failureStop adapter last.dispatch).getD
      (unmetCause attempts)
  ⟨attempts, .blocked cause, owed⟩

/-- The session the next attempt picks back up, told what it was granted. -/
def regranted (record : AttemptRecord) : Option Continuing :=
  record.session.map fun session => ⟨session, .granted (record.granted.getD [])⟩

/-- One attempt: the step it tells, and the window it leaves. -/
def runOneAttempt (cycle : Cycle) (worked : Worked) : AttemptStep × GrantWindow :=
  let attempt := cycle.attempts.length + 1
  let window : GrantWindow := ⟨cycle.window.engineGrants + worked.others⟩
  if worked.dispatch = .cancelled then (interrupted attempt worked.session, window)
  else
    let (j, window) :=
      judge selects alphanumeric task bounds (scopeInForce task cycle.granted) window worked.left
    if worked.cancelled then (interrupted attempt worked.session, window)
    else (stepOf adapter (recordOf task attempt worked j) j.unpassable, window)

/-- **One turn of `run_attempts`**: the cycle before the next session, or how it ended.  `none` is a
    session or a judgement that failed. -/
def next (cycle : Cycle) : Option Worked → Cycle ⊕ Ended
  | none => .inr .error
  | some worked =>
    match runOneAttempt selects alphanumeric task adapter bounds cycle worked with
    | (.stop record outcome needsHumanDecision, _) =>
      .inr (.report ⟨cycle.attempts ++ [record], outcome, needsHumanDecision⟩)
    | (.again record, window) =>
      .inl {
        attempts := cycle.attempts ++ [record]
        granted := cycle.granted ++ record.granted.getD []
        continuing := regranted record
        window := window }
    | (.unmet record, window) =>
      if record.freshSessionOwed cycle.attempts then
        .inl {
          attempts := cycle.attempts ++ [record]
          granted := cycle.granted
          continuing := none
          window := window }
      else .inr (.report (unmetReport adapter (cycle.attempts ++ [record])))

/-- How the cycle ends, when it does within `fuel` attempts; `worked` is what each one meets. -/
def run (worked : Nat → Option Worked) : Nat → Cycle → Option Ended
  | 0, _ => none
  | fuel + 1, cycle =>
    match next selects alphanumeric task adapter bounds cycle (worked cycle.attempts.length) with
    | .inl cycle => run worked fuel cycle
    | .inr ended => some ended

/-- The cycle as it stands when each of its first `fuel` sessions opens. -/
def sessions (worked : Nat → Option Worked) : Nat → Cycle → List Cycle
  | 0, _ => []
  | fuel + 1, cycle =>
    cycle ::
      match next selects alphanumeric task adapter bounds cycle (worked cycle.attempts.length) with
      | .inl cycle => sessions worked fuel cycle
      | .inr _ => []

/-! ## What the cycle is held to -/

/-- Whether one of `globs` selects `path`. -/
def selected (globs : List ScopeGlob) (path : String) : Bool :=
  globs.any fun glob => selects glob path

/-- Two sessions in a row, the second of which follows a grant of the engine's that selects a path
    the scope in force before it did not. -/
def Widened (before after : Cycle) : Prop :=
  ∃ record paths decidedBy, after.attempts = before.attempts ++ [record] ∧
    decisionOf record.scopeExpansion = some (.grant paths decidedBy) ∧
    decidedBy.isPerson = false ∧ after.granted = before.granted ++ paths ∧
    ∃ path, selected selects paths path = true ∧
      selected selects (scopeInForce task before.granted) path = false

/-- A session owed for the request the attempt before it left pending. -/
def Cycle.OwedRequest (cycle : Cycle) : Prop :=
  ∃ earlier record, cycle.attempts = earlier ++ [record] ∧ record.asked earlier = true

/-- A session owed for the conversation the attempt before it could not hold. -/
def Cycle.OwedOverflow (cycle : Cycle) : Prop :=
  ∃ earlier record, cycle.attempts = earlier ++ [record] ∧ record.overflowed earlier = true

/-- **Every session is accounted for**: each after the first follows a grant that widens the scope,
    but one owed for a pending request and one for an overflow. -/
structure Accounted (sessions : List Cycle) : Prop where
  follows : sessions.IsChain fun before after =>
    Widened selects task before after ∨ after.OwedRequest ∨ after.OwedOverflow
  oneRequest : sessions.Pairwise fun earlier later => ¬ (earlier.OwedRequest ∧ later.OwedRequest)
  oneOverflow : sessions.Pairwise fun earlier later =>
    ¬ (earlier.OwedOverflow ∧ later.OwedOverflow)

/-- Whether the cycle goes on from a session when it is granted `paths`: nothing cut it, its work
    does not close the task with them, it declared no criterion impossible, and it met no cause that
    stops the cycle. -/
def goesOn (cycle : Cycle) (worked : Worked) (paths : List ScopeGlob) : Bool :=
  worked.dispatch ≠ .cancelled && !worked.cancelled &&
    !closes worked.left.checked worked.left.waiting
      (worked.left.outside (scopeInForce task cycle.granted ++ paths)) &&
    worked.left.declared.isNone &&
    (unclosedCause adapter (worked.left.checked.map (·.1)) worked.dispatch).isNone

/-- **What a session asks for is more than it has**: where nothing keeps an ask of its judgement
    from being granted, and the cycle goes on from there, the ask selects a path the scope in force
    does not. -/
def AsksForMore (cycle : Cycle) (worked : Worked) : Prop :=
  ∀ ask ∈ judgedAsks selects alphanumeric (worked.left.sitting task) bounds worked.left.request,
    leftToCap selects ask bounds worked.left.touched = true →
    (∀ cap ∈ bounds.maxPerRun, cycle.window.engineGrants + worked.others < cap) →
    goesOn task adapter cycle worked ask.paths = true →
    ∃ path, selected selects ask.paths path = true ∧
      selected selects (scopeInForce task cycle.granted) path = false

end

/-! ## One attempt -/

section
variable {builds : List ScopeGlob → Bool} {selects : ScopeGlob → String → Bool}
  {alphanumeric : Char → Bool} {task : Task} {adapter : AdapterId} {bounds : Bounds builds}

/-- An attempt goes on with a grant exactly when it does not close, declared nothing impossible, met
    no cause that stops the cycle, and was granted. -/
theorem stepOf_again {record other : AttemptRecord}
    {unpassable : Option CriterionUnpassablePayload} :
    stepOf adapter record unpassable = .again other ↔
      other = record ∧ record.succeeded = false ∧ unpassable = none ∧
        unclosedCause adapter record.postResults record.dispatch = none ∧
        record.granted.isSome = true := by
  unfold stepOf stopUnclosed
  constructor
  · intro h
    split at h
    · cases h
    next hsucceeded =>
    split at h
    · cases h
    split at h
    · cases h
    · split at h <;> cases h
    next hcause =>
    split at h
    · next hgranted =>
      cases h
      exact ⟨rfl, by simpa using hsucceeded, rfl, hcause, hgranted⟩
    · cases h
  · rintro ⟨rfl, hsucceeded, rfl, hcause, hgranted⟩
    simp [hsucceeded, hcause, hgranted]

/-- An attempt that met no cause to stop did not outgrow its window. -/
theorem contextExhausted_cause {record : AttemptRecord} {results : List CriterionResult}
    (h : unclosedCause adapter results record.dispatch = none) :
    record.contextExhausted = false := by
  unfold AttemptRecord.contextExhausted
  split
  · next error hdispatch =>
    unfold unclosedCause at h
    rw [hdispatch] at h
    dsimp only [sessionDeathOf, failureStop, Option.none_or] at h
    split at h <;> cases h
  · rfl

/-- What the close of an attempt judges. -/
def closeOf (selects : ScopeGlob → String → Bool) (alphanumeric : Char → Bool) (task : Task)
    (bounds : Bounds builds) (cycle : Cycle) (worked : Worked) : Judgement × GrantWindow :=
  judge selects alphanumeric task bounds (scopeInForce task cycle.granted)
    ⟨cycle.window.engineGrants + worked.others⟩ worked.left

/-- The attempt as it goes on record. -/
def recorded (selects : ScopeGlob → String → Bool) (alphanumeric : Char → Bool) (task : Task)
    (bounds : Bounds builds) (cycle : Cycle) (worked : Worked) : AttemptRecord :=
  recordOf task (cycle.attempts.length + 1) worked
    (closeOf selects alphanumeric task bounds cycle worked).1

/-- An attempt nothing cut tells the step its judgement leaves. -/
theorem runOneAttempt_eq {cycle : Cycle} {worked : Worked} {step : AttemptStep × GrantWindow}
    (h : runOneAttempt selects alphanumeric task adapter bounds cycle worked = step)
    (hcut : ∀ record outcome decision, step.1 ≠ .stop record outcome decision) :
    worked.dispatch ≠ .cancelled ∧ worked.cancelled = false ∧
      step = (stepOf adapter (recorded selects alphanumeric task bounds cycle worked)
        worked.left.declared, (closeOf selects alphanumeric task bounds cycle worked).2) := by
  unfold runOneAttempt at h
  dsimp only at h
  split at h
  · subst h
    exact absurd rfl (hcut _ _ _)
  next hdispatch =>
  split at h
  · subst h
    exact absurd rfl (hcut _ _ _)
  next hcancelled => exact ⟨hdispatch, by simpa using hcancelled, h.symm⟩

theorem granted_iff {record : AttemptRecord} {paths : List ScopeGlob} :
    record.granted = some paths ↔
      ∃ decidedBy, decisionOf record.scopeExpansion = some (.grant paths decidedBy) := by
  unfold AttemptRecord.granted
  split
  · next granted decidedBy heq => simp [heq]
  · next hnot =>
    refine iff_of_false (by simp) ?_
    rintro ⟨decidedBy, heq⟩
    exact hnot _ _ heq

/-- The decision on record is the one the close made. -/
theorem decisionOf_recorded (cycle : Cycle) (worked : Worked) :
    decisionOf (recorded selects alphanumeric task bounds cycle worked).scopeExpansion =
      (decideRequest selects alphanumeric (worked.left.sitting task) bounds .commit
        ⟨cycle.window.engineGrants + worked.others⟩ worked.left.request).1.map (·.decision) :=
  rfl

/-- The count a close leaves is the one it had, raised by one for a grant. -/
theorem closeOf_window (cycle : Cycle) (worked : Worked) :
    (closeOf selects alphanumeric task bounds cycle worked).2.engineGrants =
      cycle.window.engineGrants + worked.others +
        if (recorded selects alphanumeric task bounds cycle worked).granted.isSome then 1
        else 0 := by
  have hgrant : (recorded selects alphanumeric task bounds cycle worked).granted.isSome =
      (decideRequest selects alphanumeric (worked.left.sitting task) bounds .commit
        ⟨cycle.window.engineGrants + worked.others⟩ worked.left.request).1.any
          (·.decision.isGrant) := by
    unfold AttemptRecord.granted
    rw [decisionOf_recorded]
    cases (decideRequest selects alphanumeric (worked.left.sitting task) bounds .commit
        ⟨cycle.window.engineGrants + worked.others⟩ worked.left.request).1 with
    | none => rfl
    | some outcome => cases hd : outcome.decision <;> simp [hd, Decision.isGrant]
  rw [hgrant]
  exact decideRequest_window ⟨cycle.window.engineGrants + worked.others⟩ worked.left.request

/-- What an attempt on record succeeded with: its work closes with what was granted. -/
theorem succeeded_recorded {cycle : Cycle} {worked : Worked} {paths : List ScopeGlob}
    (h : (recorded selects alphanumeric task bounds cycle worked).granted = some paths) :
    (recorded selects alphanumeric task bounds cycle worked).succeeded =
      closes worked.left.checked worked.left.waiting
        (worked.left.outside (scopeInForce task cycle.granted ++ paths)) := by
  obtain ⟨decidedBy, hdecision⟩ := granted_iff.mp h
  have hpaths : pathsGranted (recorded selects alphanumeric task bounds cycle
      worked).scopeExpansion = paths := by
    unfold pathsGranted
    rw [hdecision]
  rw [← hpaths]
  rfl

/-- **What going on from an attempt takes**: a grant, of an ask left to the cap and below it, or a
    fresh session the cycle owes. -/
theorem next_cases {cap : Nat} (hcap : bounds.maxPerRun = some cap) {cycle after : Cycle}
    {met : Option Worked}
    (h : next selects alphanumeric task adapter bounds cycle met = .inl after) :
    ∃ worked record, met = some worked ∧ after.attempts = cycle.attempts ++ [record] ∧
      ((∃ ask ∈ judgedAsks selects alphanumeric (worked.left.sitting task) bounds
            worked.left.request, ∃ decidedBy,
          leftToCap selects ask bounds worked.left.touched = true ∧
          cycle.window.engineGrants + worked.others < cap ∧
          goesOn task adapter cycle worked ask.paths = true ∧
          decisionOf record.scopeExpansion = some (.grant ask.paths decidedBy) ∧
          decidedBy.isPerson = false ∧ after.granted = cycle.granted ++ ask.paths ∧
          cycle.window.engineGrants < after.window.engineGrants) ∨
        record.freshSessionOwed cycle.attempts = true ∧
          cycle.window.engineGrants ≤ after.window.engineGrants) := by
  cases met with
  | none => cases h
  | some worked =>
    unfold next at h
    dsimp only at h
    split at h
    · cases h
    · next record window hrun =>
      obtain ⟨hdispatch, hcancelled, hstep⟩ := runOneAttempt_eq hrun (by simp)
      obtain ⟨hstep, hwindow⟩ := Prod.mk.inj hstep
      obtain ⟨rfl, hsucceeded, hdeclared, hcause, hgranted⟩ := stepOf_again.mp hstep.symm
      obtain ⟨paths, hpaths⟩ := Option.isSome_iff_exists.mp hgranted
      obtain ⟨decidedBy, hdecision⟩ := granted_iff.mp hpaths
      obtain ⟨hengine, ask, hmem, rfl, hleft, hbelow⟩ :=
        decideRequest_grant hcap ((decisionOf_recorded cycle worked).symm.trans hdecision)
      cases h
      refine ⟨worked, _, rfl, rfl, .inl ⟨ask, hmem, decidedBy, hleft, hbelow, ?_, hdecision,
        hengine, ?_, ?_⟩⟩
      · rw [succeeded_recorded hpaths] at hsucceeded
        have hresults : (recorded selects alphanumeric task bounds cycle worked).postResults =
            worked.left.checked.map (·.1) := rfl
        rw [hresults] at hcause
        have hcause' : unclosedCause adapter (worked.left.checked.map (·.1)) worked.dispatch =
            none := hcause
        simp [goesOn, hdispatch, hcancelled, hsucceeded, hdeclared, hcause']
      · rw [hpaths]
        rfl
      · rw [hwindow, closeOf_window, hgranted, if_pos rfl]
        omega
    · next record window hrun =>
      obtain ⟨hdispatch, hcancelled, hstep⟩ := runOneAttempt_eq hrun (by simp)
      obtain ⟨hstep, hwindow⟩ := Prod.mk.inj hstep
      split at h
      · next howed =>
        cases h
        refine ⟨worked, record, rfl, rfl, .inr ⟨howed, ?_⟩⟩
        rw [hwindow, closeOf_window]
        omega
      · cases h

/-- **A grant the cycle goes on from**: an ask left to the cap and below it opens the next session,
    with what it asked for granted. -/
theorem next_of_ask {cap : Nat} (hcap : bounds.maxPerRun = some cap) {cycle : Cycle}
    {worked : Worked} {ask : Ask}
    (hmem : ask ∈ judgedAsks selects alphanumeric (worked.left.sitting task) bounds
      worked.left.request)
    (hleft : leftToCap selects ask bounds worked.left.touched = true)
    (hbelow : cycle.window.engineGrants + worked.others < cap)
    (hgoes : goesOn task adapter cycle worked ask.paths = true) :
    ∃ after record decidedBy,
      next selects alphanumeric task adapter bounds cycle (some worked) = .inl after ∧
      after.attempts = cycle.attempts ++ [record] ∧
      decisionOf record.scopeExpansion = some (.grant ask.paths decidedBy) ∧
      record.contextExhausted = false := by
  let window : GrantWindow := ⟨cycle.window.engineGrants + worked.others⟩
  have hbelow' : window.granted < cap := hbelow
  obtain ⟨decidedBy, hdecides⟩ := decideRequest_of_left hcap hmem hleft hbelow'
  have hdecision : decisionOf (recorded selects alphanumeric task bounds cycle worked).scopeExpansion
      = some (.grant ask.paths decidedBy) := (decisionOf_recorded cycle worked).trans hdecides
  have hpaths := granted_iff.mpr ⟨decidedBy, hdecision⟩
  simp only [goesOn, Bool.and_eq_true, decide_eq_true_eq, ne_eq, Bool.not_eq_true',
    Option.isNone_iff_eq_none] at hgoes
  obtain ⟨⟨⟨⟨hdispatch, hcancelled⟩, hcloses⟩, hdeclared⟩, hcause⟩ := hgoes
  have hagain : stepOf adapter (recorded selects alphanumeric task bounds cycle worked)
      worked.left.declared = .again (recorded selects alphanumeric task bounds cycle worked) :=
    stepOf_again.mpr ⟨rfl, (succeeded_recorded hpaths).trans hcloses, hdeclared, hcause,
      by rw [hpaths]; rfl⟩
  have hrun : runOneAttempt selects alphanumeric task adapter bounds cycle worked =
      (.again (recorded selects alphanumeric task bounds cycle worked),
        (closeOf selects alphanumeric task bounds cycle worked).2) := by
    unfold runOneAttempt
    dsimp only
    rw [if_neg hdispatch, if_neg (by simpa using hcancelled)]
    exact congrArg₂ Prod.mk hagain rfl
  refine ⟨_, _, decidedBy, by rw [next, hrun], rfl, hdecision, contextExhausted_cause hcause⟩

/-! ## The budget -/

/-- What a cycle may still open: a session for each grant left below the cap, one for the first
    request left pending, one for the first overflow, and the one being opened. -/
def Cycle.left (cap : Nat) (cycle : Cycle) : Nat :=
  (cap - cycle.window.engineGrants) +
    (if cycle.attempts.any (·.escalated) then 0 else 1) +
    (if cycle.attempts.any (·.contextExhausted) then 0 else 1) + 1

/-- Every session after the first spends one of what is left. -/
theorem next_left {cap : Nat} (hcap : bounds.maxPerRun = some cap) {cycle after : Cycle}
    {met : Option Worked}
    (h : next selects alphanumeric task adapter bounds cycle met = .inl after) :
    after.left cap < cycle.left cap := by
  obtain ⟨worked, record, -, hattempts, hwhy⟩ := next_cases hcap h
  have hany : ∀ p : AttemptRecord → Bool,
      after.attempts.any p = (cycle.attempts.any p || p record) := by
    intro p
    rw [hattempts, List.any_append, List.any_cons, List.any_nil, Bool.or_false]
  unfold Cycle.left
  rw [hany, hany]
  rcases hwhy with ⟨ask, -, decidedBy, -, hbelow, -, -, -, -, hwindow⟩ | ⟨howed, hwindow⟩
  · cases cycle.attempts.any (·.escalated) <;> cases record.escalated <;>
      cases cycle.attempts.any (·.contextExhausted) <;> cases record.contextExhausted <;>
      simp <;> omega
  · simp only [AttemptRecord.freshSessionOwed, AttemptRecord.asked, AttemptRecord.overflowed,
      Bool.or_eq_true, Bool.and_eq_true, Bool.not_eq_true'] at howed
    rcases howed with ⟨⟨hescalated, -⟩, hnone⟩ | ⟨hexhausted, hnone⟩
    · rw [hescalated, hnone]
      cases cycle.attempts.any (·.contextExhausted) <;> cases record.contextExhausted <;>
        simp <;> omega
    · rw [hexhausted, hnone]
      cases cycle.attempts.any (·.escalated) <;> cases record.escalated <;> simp <;> omega

/-- **The cycle ends** within what is left of its budget. -/
theorem run_isSome {cap : Nat} (hcap : bounds.maxPerRun = some cap)
    (worked : Nat → Option Worked) {fuel : Nat} {cycle : Cycle} (h : cycle.left cap ≤ fuel) :
    (run selects alphanumeric task adapter bounds worked fuel cycle).isSome = true := by
  induction fuel generalizing cycle with
  | zero =>
    unfold Cycle.left at h
    omega
  | succ fuel ih =>
    rw [run]
    split
    · next after hnext =>
      have hleft := next_left hcap hnext
      exact ih (by omega)
    · rfl

/-- No cycle opens more sessions than its budget has left. -/
theorem length_sessions {cap : Nat} (hcap : bounds.maxPerRun = some cap)
    (worked : Nat → Option Worked) (fuel : Nat) (cycle : Cycle) :
    (sessions selects alphanumeric task adapter bounds worked fuel cycle).length ≤
      cycle.left cap := by
  induction fuel generalizing cycle with
  | zero => exact Nat.zero_le _
  | succ fuel ih =>
    rw [sessions]
    split
    · next after hnext =>
      have hleft := next_left hcap hnext
      have hrest := ih after
      rw [List.length_cons]
      omega
    · show 1 ≤ _
      unfold Cycle.left
      omega

/-! ## The accounts -/

/-- Each session opens on the attempts of the one it is reached from. -/
theorem prefix_sessions {cap : Nat} (hcap : bounds.maxPerRun = some cap)
    {worked : Nat → Option Worked} {fuel : Nat} {cycle later : Cycle}
    (h : later ∈ sessions selects alphanumeric task adapter bounds worked fuel cycle) :
    cycle.attempts <+: later.attempts := by
  induction fuel generalizing cycle with
  | zero => cases h
  | succ fuel ih =>
    rw [sessions] at h
    rcases List.mem_cons.mp h with rfl | h
    · exact List.prefix_rfl
    · split at h
      · next after hnext =>
        obtain ⟨worked, record, -, hattempts, -⟩ := next_cases hcap hnext
        exact (hattempts ▸ List.prefix_append cycle.attempts [record]).trans (ih h)
      · cases h

/-- The session opened after the first attempt of its kind. -/
def Cycle.FirstOf (p : AttemptRecord → Bool) (cycle : Cycle) : Prop :=
  ∃ earlier record, cycle.attempts = earlier ++ [record] ∧ p record = true ∧ earlier.any p = false

/-- Only one session of a cycle is the first of its kind. -/
theorem pairwise_firstOf {cap : Nat} (hcap : bounds.maxPerRun = some cap)
    (worked : Nat → Option Worked) (p : AttemptRecord → Bool) (fuel : Nat) (cycle : Cycle) :
    (sessions selects alphanumeric task adapter bounds worked fuel cycle).Pairwise
      fun earlier later => ¬ (earlier.FirstOf p ∧ later.FirstOf p) := by
  induction fuel generalizing cycle with
  | zero => exact .nil
  | succ fuel ih =>
    rw [sessions]
    split
    · next after hnext =>
      refine .cons (fun later hlater => ?_) (ih after)
      rintro ⟨⟨earlier, record, hfirst, hrecord, -⟩, others, last, hlast, -, hnone⟩
      obtain ⟨worked, added, -, hattempts, -⟩ := next_cases hcap hnext
      have hprefix := prefix_sessions hcap hlater
      rw [hattempts, hlast] at hprefix
      -- the attempt before this session is an earlier one of the later session
      have hmem : record ∈ others := by
        rcases List.prefix_concat_iff.mp hprefix with heq | hprefix
        · obtain ⟨rfl, -⟩ := List.append_inj' heq rfl
          rw [hfirst]
          exact List.mem_append_right _ (List.mem_singleton.mpr rfl)
        · refine hprefix.subset (List.mem_append_left _ ?_)
          rw [hfirst]
          exact List.mem_append_right _ (List.mem_singleton.mpr rfl)
      rw [List.any_eq_false] at hnone
      exact hnone record hmem hrecord
    · exact List.pairwise_singleton _ _

theorem Cycle.OwedRequest.firstOf {cycle : Cycle} (h : cycle.OwedRequest) :
    cycle.FirstOf (·.escalated) := by
  obtain ⟨earlier, record, hattempts, hasked⟩ := h
  simp only [AttemptRecord.asked, Bool.and_eq_true, Bool.not_eq_true'] at hasked
  exact ⟨earlier, record, hattempts, hasked.1.1, hasked.2⟩

theorem Cycle.OwedOverflow.firstOf {cycle : Cycle} (h : cycle.OwedOverflow) :
    cycle.FirstOf (·.contextExhausted) := by
  obtain ⟨earlier, record, hattempts, hoverflowed⟩ := h
  simp only [AttemptRecord.overflowed, Bool.and_eq_true, Bool.not_eq_true'] at hoverflowed
  exact ⟨earlier, record, hattempts, hoverflowed.1, hoverflowed.2⟩

/-- The session before which the cycle went on with a grant is owed for nothing else. -/
theorem not_owed {cycle : Cycle} {earlier : List AttemptRecord} {record : AttemptRecord}
    {paths : List ScopeGlob} {decidedBy : Decider}
    (hattempts : cycle.attempts = earlier ++ [record])
    (hdecision : decisionOf record.scopeExpansion = some (.grant paths decidedBy))
    (hexhausted : record.contextExhausted = false) :
    ¬ (cycle.OwedRequest ∨ cycle.OwedOverflow) := by
  rintro (h | h)
  · obtain ⟨others, last, hlast, hescalated, -⟩ := h.firstOf
    obtain ⟨-, hsame⟩ := List.append_inj' (hattempts.symm.trans hlast) rfl
    obtain rfl := List.singleton_inj.mp hsame
    simp [AttemptRecord.escalated, hdecision] at hescalated
  · obtain ⟨others, last, hlast, hlost, -⟩ := h.firstOf
    obtain ⟨-, hsame⟩ := List.append_inj' (hattempts.symm.trans hlast) rfl
    obtain rfl := List.singleton_inj.mp hsame
    simp [hexhausted] at hlost

/-- **One session after another** is accounted for exactly where the attempt between them asks for
    more than it has. -/
theorem follows_iff {cap : Nat} (hcap : bounds.maxPerRun = some cap) {cycle after : Cycle}
    {worked : Worked}
    (h : next selects alphanumeric task adapter bounds cycle (some worked) = .inl after) :
    (Widened selects task cycle after ∨ after.OwedRequest ∨ after.OwedOverflow) ↔
      AsksForMore selects alphanumeric task adapter bounds cycle worked := by
  constructor
  · intro hfollows ask hmem hleft hbelow hgoes
    obtain ⟨after', record, decidedBy, hnext, hattempts, hdecision, hexhausted⟩ :=
      next_of_ask hcap hmem hleft (hbelow cap hcap) hgoes
    obtain rfl := Sum.inl.inj (h.symm.trans hnext)
    rcases hfollows with ⟨other, paths, by_, hother, hgrant, -, -, hpath⟩ | howed
    · obtain ⟨-, hsame⟩ := List.append_inj' (hattempts.symm.trans hother) rfl
      obtain rfl := List.singleton_inj.mp hsame
      obtain ⟨rfl, -⟩ := Decision.grant.inj (Option.some.inj (hdecision.symm.trans hgrant))
      exact hpath
    · exact absurd howed (not_owed hattempts hdecision hexhausted)
  · intro hasks
    obtain ⟨worked', record, hmet, hattempts, hwhy⟩ := next_cases hcap h
    obtain rfl := Option.some.inj hmet
    rcases hwhy with
      ⟨ask, hmem, decidedBy, hleft, hbelow, hgoes, hdecision, hengine, hgranted, -⟩ | ⟨howed, -⟩
    · refine .inl ⟨record, ask.paths, decidedBy, hattempts, hdecision, hengine, hgranted,
        hasks ask hmem hleft (fun other hother => ?_) hgoes⟩
      obtain rfl := Option.some.inj (hcap.symm.trans hother)
      exact hbelow
    · rw [AttemptRecord.freshSessionOwed, Bool.or_eq_true] at howed
      rcases howed with hasked | hoverflowed
      · exact .inr (.inl ⟨_, record, hattempts, hasked⟩)
      · exact .inr (.inr ⟨_, record, hattempts, hoverflowed⟩)

/-- A grant the cycle goes on from opens another session. -/
theorem exists_next {cap : Nat} (hcap : bounds.maxPerRun = some cap) {cycle : Cycle}
    {worked : Worked} (h : ¬ AsksForMore selects alphanumeric task adapter bounds cycle worked) :
    ∃ after, next selects alphanumeric task adapter bounds cycle (some worked) = .inl after := by
  simp only [AsksForMore, not_forall] at h
  obtain ⟨ask, hmem, hleft, hbelow, hgoes, -⟩ := h
  obtain ⟨after, -, -, hnext, -⟩ := next_of_ask hcap hmem hleft (hbelow cap hcap) hgoes
  exact ⟨after, hnext⟩

/-- What the sessions of a cycle follow, where every attempt of it asks for more than it has. -/
theorem isChain_sessions {cap : Nat} (hcap : bounds.maxPerRun = some cap)
    (worked : Nat → Option Worked) {fuel : Nat} {start : Cycle}
    (h : ∀ cycle ∈ sessions selects alphanumeric task adapter bounds worked fuel start,
      ∀ met ∈ worked cycle.attempts.length,
        AsksForMore selects alphanumeric task adapter bounds cycle met) :
    (sessions selects alphanumeric task adapter bounds worked fuel start).IsChain
      fun before after => Widened selects task before after ∨ after.OwedRequest ∨
        after.OwedOverflow := by
  induction fuel generalizing start with
  | zero => exact .nil
  | succ fuel ih =>
    rw [sessions] at h ⊢
    split
    · next after hnext =>
      simp only [hnext] at h
      obtain ⟨met, record, hmet, -⟩ := next_cases hcap hnext
      have hrest := ih fun cycle hmem => h cycle (List.mem_cons_of_mem _ hmem)
      cases fuel with
      | zero => exact .singleton _
      | succ fuel =>
        rw [sessions] at hrest ⊢
        rw [hmet] at hnext
        exact .cons_cons ((follows_iff hcap hnext).mpr (h start List.mem_cons_self met hmet)) hrest
    · exact .singleton _

/-- Where the sessions of a cycle are accounted for, every attempt of it asks for more. -/
theorem asksForMore_of_isChain {cap : Nat} (hcap : bounds.maxPerRun = some cap)
    (worked : Nat → Option Worked) {fuel : Nat} {start : Cycle}
    (h : (sessions selects alphanumeric task adapter bounds worked (fuel + 1) start).IsChain
      fun before after => Widened selects task before after ∨ after.OwedRequest ∨
        after.OwedOverflow) :
    ∀ cycle ∈ sessions selects alphanumeric task adapter bounds worked fuel start,
      ∀ met ∈ worked cycle.attempts.length,
        AsksForMore selects alphanumeric task adapter bounds cycle met := by
  induction fuel generalizing start with
  | zero =>
    intro cycle hmem
    cases hmem
  | succ fuel ih =>
    intro cycle hmem met hmet
    rw [sessions] at hmem h
    rcases List.mem_cons.mp hmem with rfl | hmem
    · by_contra hnot
      obtain ⟨after, hnext⟩ := exists_next hcap hnot
      have hmet' : worked cycle.attempts.length = some met := hmet
      simp only [hmet', hnext] at h
      rw [sessions] at h
      exact hnot ((follows_iff hcap hnext).mp (List.isChain_cons_cons.mp h).1)
    · split at hmem
      · next after hnext =>
        simp only [hnext] at h
        exact ih h.tail cycle hmem met hmet
      · cases hmem

/-- A cycle as it begins: with what its task was granted before, and the session it was reopened
    to continue. -/
def startOf (granted : List ScopeGlob) (resume : Option Continuing) (window : GrantWindow) :
    Cycle :=
  ⟨[], granted, resume, window⟩

/-- **A task's cycle of sessions ends**: under a cap of `cap` grants it is over within `cap + 3`
    sessions, whatever each of them meets.  Its sessions are accounted for exactly where every
    attempt the cycle goes on from asks for more than it has. -/
theorem cycle_spends {cap : Nat} (hcap : bounds.maxPerRun = some cap)
    (worked : Nat → Option Worked) (granted : List ScopeGlob) (resume : Option Continuing)
    (window : GrantWindow) :
    let start := startOf granted resume window
    (run selects alphanumeric task adapter bounds worked (cap + 3) start).isSome = true ∧
      (∀ fuel, (sessions selects alphanumeric task adapter bounds worked fuel start).length ≤
        cap + 3) ∧
      ((∀ fuel, Accounted selects task
          (sessions selects alphanumeric task adapter bounds worked fuel start)) ↔
        ∀ fuel, ∀ cycle ∈ sessions selects alphanumeric task adapter bounds worked fuel start,
          ∀ met ∈ worked cycle.attempts.length,
            AsksForMore selects alphanumeric task adapter bounds cycle met) := by
  intro start
  have hleft : start.left cap ≤ cap + 3 := by
    show (cap - window.engineGrants) + 1 + 1 + 1 ≤ cap + 3
    omega
  refine ⟨run_isSome hcap worked hleft,
    fun fuel => (length_sessions hcap worked fuel start).trans hleft, ?_, ?_⟩
  · intro haccounted fuel
    exact asksForMore_of_isChain hcap worked (haccounted (fuel + 1)).follows
  · intro hasks fuel
    refine ⟨isChain_sessions hcap worked (hasks fuel), ?_, ?_⟩
    · exact (pairwise_firstOf hcap worked _ fuel start).imp fun h hboth =>
        h ⟨hboth.1.firstOf, hboth.2.firstOf⟩
    · exact (pairwise_firstOf hcap worked _ fuel start).imp fun h hboth =>
        h ⟨hboth.1.firstOf, hboth.2.firstOf⟩

end

/-- A session that leaves its criterion red and asks for the path its task has already, then one
    that makes the criterion pass. -/
def sampleWorked : Nat → Option Worked
  | 0 => some {
      session := some "s-1"
      dispatch := .completed "asked for src/a"
      left := {
        checked := [(⟨"cargo test", 101, none, false, none⟩, none)]
        answers := fun _ => (1, none)
        request := some ⟨["src/a"], "the change goes there", some "cargo test -p a", none⟩
        outside := fun _ => [] } }
  | _ => some {
      session := some "s-2"
      dispatch := .completed "done"
      left := {
        checked := [(⟨"cargo test", 0, none, false, none⟩, none)]
        answers := fun _ => (0, none)
        outside := fun _ => [] } }

def sampleTask : Task := { id := "t1", scope := ["src/a"], criteria := [{ cmd := "cargo test" }] }

def sampleBounds : Bounds fun _ => true := ⟨.rules, 5, some 1, .denying [], []⟩

theorem cycle_spends_sample :
    (run plainSelects Char.isAlphanum sampleTask "claude" sampleBounds sampleWorked (1 + 3)
        (startOf [] none ⟨0⟩)).isSome = true ∧
      (sessions plainSelects Char.isAlphanum sampleTask "claude" sampleBounds sampleWorked 9
        (startOf [] none ⟨0⟩)).length ≤ 1 + 3 := by
  have hcap : sampleBounds.maxPerRun = some 1 := rfl
  refine ⟨(cycle_spends hcap sampleWorked [] none ⟨0⟩).1, ?_⟩
  exact (cycle_spends hcap sampleWorked [] none ⟨0⟩).2.1 9

/-- The second session follows a grant of the path the task's scope selects already. -/
theorem not_accounted :
    ¬ ∀ fuel, Accounted plainSelects sampleTask
      (sessions plainSelects Char.isAlphanum sampleTask "claude" sampleBounds sampleWorked fuel
        (startOf [] none ⟨0⟩)) := by
  intro h
  have hcap : sampleBounds.maxPerRun = some 1 := rfl
  have hasks := asksForMore_of_isChain hcap sampleWorked (h 2).follows (startOf [] none ⟨0⟩)
    (List.mem_singleton.mpr rfl) _ rfl
  obtain ⟨path, hnew, hhad⟩ := hasks
    (.requested ["src/a"] "the change goes there" (some ⟨"cargo test -p a", .red 1⟩))
    (by decide +kernel) (by decide +kernel) (by decide +kernel) (by decide +kernel)
  exact Bool.false_ne_true (hhad.symm.trans hnew)

end Yunta.TaskCycle
