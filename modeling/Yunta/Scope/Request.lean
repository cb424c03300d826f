/-
  How a session's request is decided: while it works, and when its attempt closes.

  1. **Deciding** — `decideRequest` puts the asks of a request to the window it counts against: the
     evidence a red criterion of the task gives, else the request with what its criterion answers,
     and then what another red output locates.  A dry judgement counts against a window of its own.

  2. **The asks** — `asksOf` lists what is put.  Where one of them is left to the cap, the request
     is granted below the cap and escalated from it on; else it is decided alike at every count
     (`decideAsked_of_capDecides`, `decideAsked_congr`).

  3. **Main result** — `check_agrees_iff`: the judgement a session is given and the one that closes
     its attempt decide a request alike exactly where the grants not yet on the log do not matter to
     the cap.  They always deny alike.

  4. **Standing refusals** — `standing_refusal_decides`: what the call that asks refuses every
     judgement refuses, with the one denial that stands against the paths, and it is the only such
     denial a judgement gives.
-/
import Yunta.Criteria.Memo
import Yunta.Scope.Window

set_option linter.unusedVariables false

namespace Yunta.Expansion

open Criteria (Unanswered)

/-! ## What a red output locates -/

/-- Whether `c`, in front of a path, makes it the tail of another. -/
def extendsPath (alphanumeric : Char → Bool) (c : Char) : Bool :=
  alphanumeric c || c = '_' || c = '.' || c = '/' || c = '-'

/-- A line number right after a path, as in `path:12`. -/
def lineAfter : List Char → Bool
  | ':' :: d :: _ => d.isDigit
  | _ => false

/-- The matches of `path` from here on, past the `skip` characters the last one took. -/
def locatesFrom (alphanumeric : Char → Bool) (path : List Char) :
    Option Char → Nat → List Char → Bool
  | _, _, [] => false
  | _, skip + 1, c :: rest => locatesFrom alphanumeric path (some c) skip rest
  | before, 0, c :: rest =>
    if path.isPrefixOf (c :: rest) then
      (!before.any (extendsPath alphanumeric) && lineAfter ((c :: rest).drop path.length)) ||
        locatesFrom alphanumeric path (some c) (path.length - 1) rest
    else locatesFrom alphanumeric path (some c) 0 rest

/-- Whether `text` locates `path`: names it whole, with a line number right after it. -/
def locates (alphanumeric : Char → Bool) (text path : String) : Bool :=
  locatesFrom alphanumeric path.toList none 0 text.toList

/-- Whether `text` locates every path of `paths`. -/
def locatesEvery (alphanumeric : Char → Bool) (text : String) (paths : List ScopeGlob) : Bool :=
  paths.all (locates alphanumeric text)

/-! ## The judgement's facts -/

/-- What a session asked: paths, a reason, and a criterion it proposes or cites. -/
structure ScopeExpansionRequest where
  paths : List ScopeGlob
  reason : String
  /-- The command of the criterion it proposes. -/
  proposedCriterion : Option String := none
  /-- One of the task's own criteria, by command. -/
  evidence : Option String := none
  deriving DecidableEq

/-- One criterion run on the tree, and what it printed where that is kept. -/
structure CriterionRun where
  cmd : String
  exitCode : Int
  output : Option String
  deriving DecidableEq

/-- Whether a criterion ran red: it exited non-zero, and it did answer. -/
def isRed (run : CriterionRun) : Bool :=
  run.exitCode ≠ 0 && (Unanswered.of run.exitCode).isNone

/-- What a judgement is made on, beside the request: the task's criteria, what a command answers on
    the tree, the criteria run on it, the files the attempt touched, and the refused writes. -/
structure Sitting where
  criteria : List String
  answers : String → Int × Option String
  runs : List CriterionRun
  touched : List String
  refused : List String

/-- What a red output locates. -/
structure Located where
  paths : List ScopeGlob
  criterion : String
  asked : Option ScopeExpansionRequest
  precheck : Option Precheck
  deriving DecidableEq

/-- Located facts, when there is at least one path. -/
def located (paths : List ScopeGlob) (criterion : String) (asked : Option ScopeExpansionRequest)
    (precheck : Option Precheck) : Option Located :=
  if paths.isEmpty then none else some ⟨paths, criterion, asked, precheck⟩

/-- The first red criterion whose output `locate` finds facts in. -/
def firstLocated (runs : List CriterionRun) (locate : String → String → Option Located) :
    Option Located :=
  runs.findSome? fun run =>
    if isRed run then run.output.bind fun text => locate text run.cmd else none

/-- One attempt's expansion story: what the session asked, the precheck of its criterion, what was
    decided, and the count it left. -/
structure Outcome where
  asked : Option ScopeExpansionRequest
  precheck : Option Precheck
  decision : Decision
  count : Nat
  deriving DecidableEq

/-- Whether a decision counts against the judgement's own window, or against a copy. -/
inductive Settle where
  | dry | commit

/-- Whether no work can change this refusal. -/
def Denial.stands : Denial → Bool
  | .reachesProtected _ | .modeDeny => true
  | _ => false

/-- Whether a decision stands without a red output's say. -/
def standing : Decision → Bool
  | .grant .. => true
  | .deny denial => Denial.stands denial
  | .escalate .. => false

section
variable {builds : List ScopeGlob → Bool} (selects : ScopeGlob → String → Bool)
  (alphanumeric : Char → Bool) (sitting : Sitting) (bounds : Bounds builds)

/-- A proposed criterion's exit on the tree, as the request's precheck. -/
def precheckOf (cmd : String) : Precheck :=
  let exit := (sitting.answers cmd).1
  if exit = 0 then .passes
  else if (Unanswered.of exit).isSome then .couldNotRun
  else .red exit

/-- The request as an ask, with the precheck of its criterion. -/
def requested (request : ScopeExpansionRequest) (precheck : String → Precheck) : Ask :=
  .requested request.paths request.reason
    (request.proposedCriterion.map fun cmd => ⟨cmd, precheck cmd⟩)

/-- The refusal a request meets before its criterion runs: one no work changes. -/
def standingRefusal (request : ScopeExpansionRequest) : Option Denial :=
  match screen selects (requested request fun _ => .notRun) bounds with
  | .settled (.deny denial) => if Denial.stands denial then some denial else none
  | _ => none

/-- The request's facts when it cites a criterion of the task which, run on the work, is red and
    locates every path it asks for. -/
def ofEvidence (request : ScopeExpansionRequest) : Option Located :=
  match request.evidence.filter fun cmd => sitting.criteria.contains cmd with
  | none => none
  | some cmd =>
    let (exit, output) := sitting.answers cmd
    match output with
    | none => none
    | some text =>
      if exit ≠ 0 && (Unanswered.of exit).isNone && locatesEvery alphanumeric text request.paths then
        located request.paths cmd (some request) none
      else none

/-- The first red output that locates one of the refused writes, with the writes it locates. -/
def ofRefusals : Option Located :=
  firstLocated sitting.runs fun text cmd =>
    located ((sitting.refused.filter (locates alphanumeric text)).map exact) cmd none none

/-- The facts of a request that a red output of this judgement locates in full. -/
def ofRed (request : ScopeExpansionRequest) (precheck : Option Precheck) : Option Located :=
  firstLocated sitting.runs fun text cmd =>
    if locatesEvery alphanumeric text request.paths then
      located request.paths cmd (some request) precheck
    else none

/-- The outcome of a decision made on located facts. -/
def decideLocated (window : GrantWindow) (located : Located) : Outcome × GrantWindow :=
  let ((decision, count), window) :=
    window.expand selects (.located located.paths located.criterion) bounds sitting.touched
  (⟨located.asked, located.precheck, decision, count⟩, window)

/-- The outcome of the request a session made. -/
def decideAsked (window : GrantWindow) (request : ScopeExpansionRequest) :
    Outcome × GrantWindow :=
  let red := sitting.runs.any isRed
  match if red then ofEvidence alphanumeric sitting request else none with
  | some located => decideLocated selects sitting bounds window located
  | none =>
    match standingRefusal selects bounds request with
    | some denial =>
      (⟨some request, request.proposedCriterion.map fun _ => .notRun, .deny denial,
        window.granted⟩, window)
    | none =>
      let precheck := request.proposedCriterion.map (precheckOf sitting)
      let ((decision, count), window) :=
        window.expand selects (requested request (precheckOf sitting)) bounds sitting.touched
      let outcome : Outcome := ⟨some request, precheck, decision, count⟩
      if !red || standing decision then (outcome, window)
      else
        match ofRed alphanumeric sitting request precheck with
        | some located => decideLocated selects sitting bounds window located
        | none => (outcome, window)

/-- The decision on the request the session made, or on the refused writes a red criterion
    locates.  A dry one leaves the judgement's window as it was. -/
def decideRequest (settle : Settle) (window : GrantWindow)
    (request : Option ScopeExpansionRequest) : Option Outcome × GrantWindow :=
  let decided : Option Outcome × GrantWindow :=
    match request with
    | some request =>
      let (outcome, window) := decideAsked selects alphanumeric sitting bounds window request
      (some outcome, window)
    | none =>
      if sitting.refused.isEmpty || !sitting.runs.any isRed then (none, window)
      else
        match ofRefusals alphanumeric sitting with
        | some located =>
          let (outcome, window) := decideLocated selects sitting bounds window located
          (some outcome, window)
        | none => (none, window)
  match settle with
  | .dry => (decided.1, window)
  | .commit => decided

/-! ## The asks -/

/-- The asks a request's judgement puts to its window, in order. -/
def asksOf (request : ScopeExpansionRequest) : List Ask :=
  let red := sitting.runs.any isRed
  match if red then ofEvidence alphanumeric sitting request else none with
  | some located => [.located located.paths located.criterion]
  | none =>
    match standingRefusal selects bounds request with
    | some _ => []
    | none =>
      let precheck := request.proposedCriterion.map (precheckOf sitting)
      requested request (precheckOf sitting) ::
        ((if red then ofRed alphanumeric sitting request precheck else none).toList.map
          fun located => .located located.paths located.criterion)

end

section
variable {builds : List ScopeGlob → Bool} {selects : ScopeGlob → String → Bool}
  {alphanumeric : Char → Bool} {sitting : Sitting} {bounds : Bounds builds}
  {request : ScopeExpansionRequest}

theorem paths_of_located {paths : List ScopeGlob} {criterion : String}
    {asked : Option ScopeExpansionRequest} {precheck : Option Precheck} {facts : Located}
    (h : located paths criterion asked precheck = some facts) : facts.paths = paths := by
  unfold located at h
  split at h
  · cases h
  · cases h
    rfl

theorem paths_of_evidence {facts : Located}
    (h : ofEvidence alphanumeric sitting request = some facts) : facts.paths = request.paths := by
  unfold ofEvidence at h
  split at h
  · cases h
  · dsimp only at h
    split at h
    · cases h
    · split at h
      · exact paths_of_located h
      · cases h

theorem paths_of_red {precheck : Option Precheck} {facts : Located}
    (h : ofRed alphanumeric sitting request precheck = some facts) :
    facts.paths = request.paths := by
  unfold ofRed firstLocated at h
  obtain ⟨run, -, hrun⟩ := List.exists_of_findSome?_eq_some h
  split at hrun
  · obtain ⟨text, -, htext⟩ := Option.bind_eq_some_iff.mp hrun
    dsimp only at htext
    split at htext
    · exact paths_of_located htext
    · cases htext
  · cases hrun

/-- Evidence for the paths of a request left to the cap is left to it too: what holds the request
    to a criterion of its own holds evidence to none. -/
theorem leftToCap_located (criterion : String) {paths : List ScopeGlob} {reason : String}
    {proposal : Option Proposal} {touched : List String}
    (h : leftToCap selects (.requested paths reason proposal) bounds touched = true) :
    leftToCap selects (.located paths criterion) bounds touched = true := by
  unfold leftToCap screen origin at h ⊢
  simp only [] at h ⊢
  by_cases hwhole : refusesWhole (reaching paths (bounds.protection.reachedBy selects)) = true
  · rw [if_pos hwhole] at h
    cases h
  rw [if_neg hwhole] at h ⊢
  cases hdenial : precheckDenial proposal with
  | some denial =>
    rw [hdenial] at h
    cases h
  | none =>
  rw [hdenial] at h
  have hnone : precheckDenial none = none := rfl
  rw [hnone]
  simp only [] at h ⊢
  generalize (!(reaching paths (bounds.protection.reachedBy selects)).isEmpty) = reached at h ⊢
  cases hmode : byMode (.requested paths reason proposal) bounds.mode paths reached with
  | some decision =>
    rw [hmode] at h
    cases h
  | none =>
    rw [hmode] at h
    have hlocated : byMode (.located paths criterion) bounds.mode paths reached = none := by
      unfold byMode at hmode ⊢
      split at hmode
      · cases hmode
      next hdeny =>
      rw [if_neg hdeny]
      split at hmode
      · cases hmode
      next hreached =>
      rw [if_neg hreached]
    rw [hlocated]
    by_cases hbeside : (paths.any fun path => reachesAny selects path bounds.beside) = true
    · simp only [if_pos hbeside] at h
      cases h
    · simp only [if_neg hbeside] at h ⊢
      exact h

/-- A refusal that stands does not read the criterion's run. -/
theorem screen_stands {precheck : String → Precheck} {denial : Denial}
    (h : screen selects (requested request precheck) bounds = .settled (.deny denial))
    (hstands : Denial.stands denial = true) :
    screen selects (requested request fun _ => .notRun) bounds = .settled (.deny denial) := by
  unfold requested screen origin at h ⊢
  simp only [] at h ⊢
  by_cases hwhole : refusesWhole (reaching request.paths (bounds.protection.reachedBy selects)) =
      true
  · rw [if_pos hwhole] at h ⊢
    exact h
  rw [if_neg hwhole] at h ⊢
  have hunrun : precheckDenial (request.proposedCriterion.map fun cmd =>
      (⟨cmd, .notRun⟩ : Proposal)) = none := by
    cases request.proposedCriterion <;> rfl
  rw [hunrun]
  -- what running the criterion refuses does not stand
  split at h
  · next d hd =>
    cases h
    cases hcriterion : request.proposedCriterion with
    | none => simp [hcriterion, precheckDenial] at hd
    | some cmd =>
      rw [hcriterion] at hd
      cases hp : precheck cmd <;> simp [precheckDenial, hp] at hd <;> subst hd <;> cases hstands
  generalize (!(reaching request.paths (bounds.protection.reachedBy selects)).isEmpty) =
    reached at h ⊢
  split at h
  · next decision hmode =>
    cases h
    unfold byMode at hmode ⊢
    split at hmode
    · next hdeny =>
      cases hmode
      simp only [if_pos hdeny]
    · split at hmode
      · cases hmode
      · split at hmode
        · cases hmode
          cases hstands
        · cases hmode
        · cases hmode
  · split at h <;> cases h

/-- **A request no standing refusal meets**, and that is not left to the cap, is decided in a way a
    red output may still change. -/
theorem not_standing (hrefusal : standingRefusal selects bounds request = none)
    (hleft : leftToCap selects (requested request (precheckOf sitting)) bounds sitting.touched =
      false) (n : Nat) :
    standing (expand selects (requested request (precheckOf sitting)) bounds sitting.touched n) =
      false := by
  cases hdecision : expand selects (requested request (precheckOf sitting)) bounds
      sitting.touched n with
  | grant paths decidedBy =>
    have hgrant := leftToCap_of_grant (show (expand selects (requested request
      (precheckOf sitting)) bounds sitting.touched n).isGrant = true by rw [hdecision]; rfl)
    rw [hleft] at hgrant
    cases hgrant
  | escalate paths because => rfl
  | deny denial =>
    show Denial.stands denial = false
    rw [← Bool.not_eq_true]
    intro hstands
    have hscreen : screen selects (requested request (precheckOf sitting)) bounds =
        .settled (.deny denial) := by
      unfold expand at hdecision
      cases hs : screen selects (requested request (precheckOf sitting)) bounds with
      | settled decision =>
        rw [hs] at hdecision
        rw [← hdecision]
      | candidate c =>
        rw [hs] at hdecision
        rw [settle_deny hdecision] at hstands
        cases hstands
    unfold standingRefusal at hrefusal
    rw [screen_stands hscreen hstands] at hrefusal
    simp [hstands] at hrefusal

/-! ## One request, two counts -/

/-- What located facts decide, at a window's count. -/
theorem decideLocated_decision (window : GrantWindow) (facts : Located) :
    (decideLocated selects sitting bounds window facts).1.decision =
      expand selects (.located facts.paths facts.criterion) bounds sitting.touched
        window.granted :=
  window.expand_decision selects (.located facts.paths facts.criterion) bounds sitting.touched

/-- The decision of a request no evidence and no standing refusal settles: the request's own, unless
    a red output may change it and locates its paths. -/
theorem decideAsked_decision (window : GrantWindow)
    (hevidence : (if sitting.runs.any isRed then ofEvidence alphanumeric sitting request else none) =
      none) (hrefusal : standingRefusal selects bounds request = none) :
    (decideAsked selects alphanumeric sitting bounds window request).1.decision =
      if (!sitting.runs.any isRed || standing (expand selects
          (requested request (precheckOf sitting)) bounds sitting.touched window.granted)) = true
      then expand selects (requested request (precheckOf sitting)) bounds sitting.touched
        window.granted
      else
        match ofRed alphanumeric sitting request
          (request.proposedCriterion.map (precheckOf sitting)) with
        | some facts => expand selects (.located facts.paths facts.criterion) bounds
            sitting.touched window.granted
        | none => expand selects (requested request (precheckOf sitting)) bounds sitting.touched
            window.granted := by
  have hdecision := window.expand_decision selects
    (requested request (precheckOf sitting)) bounds sitting.touched
  have hwindow := window.expand_window selects
    (requested request (precheckOf sitting)) bounds sitting.touched
  unfold decideAsked
  simp only [hevidence, hrefusal]
  rw [hdecision] at hwindow ⊢
  split
  · rfl
  next hopen =>
  cases ofRed alphanumeric sitting request (request.proposedCriterion.map (precheckOf sitting)) with
  | none => rfl
  | some facts =>
    simp only []
    rw [decideLocated_decision, hwindow]
    -- a decision that does not stand is no grant, and leaves the count
    have hnot : (expand selects (requested request (precheckOf sitting)) bounds sitting.touched
        window.granted).isGrant = false := by
      cases hd : expand selects (requested request (precheckOf sitting)) bounds sitting.touched
          window.granted with
      | grant paths decidedBy =>
        rw [hd] at hopen
        simp [standing] at hopen
      | _ => rfl
    rw [hnot]
    rfl

/-- Whether one of the asks a request's judgement puts is left to the cap. -/
def capDecides (selects : ScopeGlob → String → Bool) (alphanumeric : Char → Bool)
    (sitting : Sitting) (bounds : Bounds builds) (request : ScopeExpansionRequest) : Bool :=
  (asksOf selects alphanumeric sitting bounds request).any fun ask =>
    leftToCap selects ask bounds sitting.touched

/-- Past the cap it does not matter who would have granted. -/
theorem byCap_held {paths : List ScopeGlob} {decidedBy other : Decider} {n : Nat}
    (h : standing (byCap bounds paths decidedBy n) = false) :
    byCap bounds paths other n = byCap bounds paths decidedBy n := by
  unfold byCap at h ⊢
  cases hcap : bounds.maxPerRun with
  | none =>
    rw [hcap] at h
    cases h
  | some cap =>
    simp only [hcap] at h ⊢
    split
    · rfl
    · next hbelow =>
      rw [if_neg hbelow] at h
      cases h

/-- **A request the cap decides** is granted below it, and waits for a person from it on. -/
theorem decideAsked_of_capDecides
    (h : capDecides selects alphanumeric sitting bounds request = true) :
    ∃ decidedBy, ∀ window : GrantWindow,
      (decideAsked selects alphanumeric sitting bounds window request).1.decision =
        byCap bounds request.paths decidedBy window.granted := by
  unfold capDecides asksOf at h
  cases hevidence : (if sitting.runs.any isRed then ofEvidence alphanumeric sitting request
      else none) with
  | some facts =>
    simp only [hevidence, List.any_cons, List.any_nil, Bool.or_false] at h
    have hpaths : facts.paths = request.paths := by
      split at hevidence
      · exact paths_of_evidence hevidence
      · cases hevidence
    obtain ⟨decidedBy, hexpand⟩ := expand_of_leftToCap h
    refine ⟨decidedBy, fun window => ?_⟩
    unfold decideAsked
    simp only [hevidence]
    rw [decideLocated_decision, hexpand, Ask.paths, hpaths]
  | none =>
  simp only [hevidence] at h
  cases hrefusal : standingRefusal selects bounds request with
  | some denial => simp [hrefusal] at h
  | none =>
  simp only [hrefusal] at h
  by_cases hleft : leftToCap selects (requested request (precheckOf sitting)) bounds
      sitting.touched = true
  · -- the request itself: past the cap, what a red output locates waits at it too
    obtain ⟨decidedBy, hexpand⟩ := expand_of_leftToCap hleft
    have hself : ∀ n, expand selects (requested request (precheckOf sitting)) bounds
        sitting.touched n = byCap bounds request.paths decidedBy n := hexpand
    refine ⟨decidedBy, fun window => ?_⟩
    rw [decideAsked_decision window hevidence hrefusal, hself]
    split
    · rfl
    next hopen =>
    split
    · next facts hfacts =>
      obtain ⟨other, hother⟩ := expand_of_leftToCap
        (leftToCap_located facts.criterion hleft)
      have hstill : standing (byCap bounds request.paths decidedBy window.granted) = false := by
        rw [Bool.not_eq_true, Bool.or_eq_false_iff] at hopen
        exact hopen.2
      rw [paths_of_red hfacts]
      exact (hother window.granted).trans (byCap_held hstill)
    · rfl
  · -- the request is not the cap's: what a red output locates of it is
    rw [Bool.not_eq_true] at hleft
    have hopen : ∀ n, standing (expand selects (requested request (precheckOf sitting)) bounds
        sitting.touched n) = false := not_standing hrefusal hleft
    rw [List.any_cons, hleft, Bool.false_or, List.any_map] at h
    cases hred : sitting.runs.any isRed with
    | false => simp [hred] at h
    | true =>
    cases hfacts : ofRed alphanumeric sitting request
        (request.proposedCriterion.map (precheckOf sitting)) with
    | none => simp [hfacts] at h
    | some facts =>
      have hlocated : leftToCap selects (.located facts.paths facts.criterion) bounds
          sitting.touched = true := by simpa [hred, hfacts] using h
      obtain ⟨decidedBy, hexpand⟩ := expand_of_leftToCap hlocated
      refine ⟨decidedBy, fun window => ?_⟩
      rw [decideAsked_decision window hevidence hrefusal, hopen, hred, hfacts]
      simp only [Bool.not_true, Bool.or_false, Bool.false_eq_true, if_false]
      rw [hexpand, Ask.paths, paths_of_red hfacts]

/-- **Any other request** is decided alike at every count. -/
theorem decideAsked_congr (h : capDecides selects alphanumeric sitting bounds request = false)
    (window window' : GrantWindow) :
    (decideAsked selects alphanumeric sitting bounds window request).1.decision =
      (decideAsked selects alphanumeric sitting bounds window' request).1.decision := by
  unfold capDecides asksOf at h
  cases hevidence : (if sitting.runs.any isRed then ofEvidence alphanumeric sitting request
      else none) with
  | some facts =>
    simp only [hevidence, List.any_cons, List.any_nil, Bool.or_false] at h
    unfold decideAsked
    simp only [hevidence]
    rw [decideLocated_decision, decideLocated_decision]
    exact expand_congr h _ _
  | none =>
  simp only [hevidence] at h
  cases hrefusal : standingRefusal selects bounds request with
  | some denial =>
    unfold decideAsked
    simp only [hevidence, hrefusal]
  | none =>
  simp only [hrefusal] at h
  rw [List.any_cons, Bool.or_eq_false_iff, List.any_map] at h
  obtain ⟨hleft, hrest⟩ := h
  rw [decideAsked_decision window hevidence hrefusal,
    decideAsked_decision window' hevidence hrefusal, not_standing hrefusal hleft,
    not_standing hrefusal hleft, expand_congr hleft window.granted window'.granted]
  split
  · rfl
  next hopen =>
  have hred : sitting.runs.any isRed = true := by simpa using hopen
  split
  · next facts hfacts =>
    have hlocated : leftToCap selects (.located facts.paths facts.criterion) bounds
        sitting.touched = false := by simpa [hred, hfacts] using hrest
    exact expand_congr hlocated _ _
  · rfl

/-! ## What a judgement grants -/

/-- The asks a judgement puts to its window: those of the request, or of the refused writes that a
    red criterion locates. -/
def judgedAsks (selects : ScopeGlob → String → Bool) (alphanumeric : Char → Bool)
    (sitting : Sitting) (bounds : Bounds builds) : Option ScopeExpansionRequest → List Ask
  | some request => asksOf selects alphanumeric sitting bounds request
  | none =>
    if sitting.refused.isEmpty || !sitting.runs.any isRed then []
    else (ofRefusals alphanumeric sitting).toList.map fun facts =>
      .located facts.paths facts.criterion

/-- Every ask of a request is for the paths it asks for. -/
theorem paths_of_asksOf {ask : Ask}
    (h : ask ∈ asksOf selects alphanumeric sitting bounds request) : ask.paths = request.paths := by
  unfold asksOf at h
  cases hevidence : (if sitting.runs.any isRed then ofEvidence alphanumeric sitting request
      else none) with
  | some facts =>
    simp only [hevidence, List.mem_singleton] at h
    rw [h, Ask.paths]
    split at hevidence
    · exact paths_of_evidence hevidence
    · cases hevidence
  | none =>
    simp only [hevidence] at h
    cases hrefusal : standingRefusal selects bounds request with
    | some denial => simp [hrefusal] at h
    | none =>
      simp only [hrefusal, List.mem_cons, List.mem_map, Option.mem_toList] at h
      rcases h with rfl | ⟨facts, hfacts, rfl⟩
      · rfl
      · split at hfacts
        · exact paths_of_red hfacts
        · cases hfacts

/-- What decides a request: one of its asks, or the refusal that stands. -/
theorem decideAsked_ask (window : GrantWindow) :
    (∃ ask ∈ asksOf selects alphanumeric sitting bounds request,
      (decideAsked selects alphanumeric sitting bounds window request).1.decision =
        expand selects ask bounds sitting.touched window.granted) ∨
    ∃ denial, (decideAsked selects alphanumeric sitting bounds window request).1.decision =
      .deny denial := by
  cases hevidence : (if sitting.runs.any isRed then ofEvidence alphanumeric sitting request
      else none) with
  | some facts =>
    refine .inl ⟨.located facts.paths facts.criterion, ?_, ?_⟩
    · simp only [asksOf, hevidence, List.mem_singleton]
    · unfold decideAsked
      simp only [hevidence]
      exact decideLocated_decision window facts
  | none =>
  cases hrefusal : standingRefusal selects bounds request with
  | some denial =>
    refine .inr ⟨denial, ?_⟩
    unfold decideAsked
    simp only [hevidence, hrefusal]
  | none =>
  have hself : requested request (precheckOf sitting) ∈
      asksOf selects alphanumeric sitting bounds request := by
    simp only [asksOf, hevidence, hrefusal, List.mem_cons, true_or]
  rw [decideAsked_decision window hevidence hrefusal]
  split
  · exact .inl ⟨_, hself, rfl⟩
  next hopen =>
  have hred : sitting.runs.any isRed = true := by
    rw [Bool.not_eq_true, Bool.or_eq_false_iff] at hopen
    simpa using hopen.1
  split
  · next facts hfacts =>
    refine .inl ⟨.located facts.paths facts.criterion, ?_, rfl⟩
    simp only [asksOf, hevidence, hrefusal]
    simp [hred, hfacts]
  · exact .inl ⟨_, hself, rfl⟩

/-- Located facts raise the count when they are granted. -/
theorem decideLocated_window (window : GrantWindow) (facts : Located) :
    (decideLocated selects sitting bounds window facts).2.granted = window.granted +
      if (decideLocated selects sitting bounds window facts).1.decision.isGrant then 1 else 0 :=
  window.expand_window selects (.located facts.paths facts.criterion) bounds sitting.touched

/-- A request raises the count when it is granted, by one. -/
theorem decideAsked_window (window : GrantWindow) :
    (decideAsked selects alphanumeric sitting bounds window request).2.granted = window.granted +
      if (decideAsked selects alphanumeric sitting bounds window request).1.decision.isGrant then 1
      else 0 := by
  have hwindow := window.expand_window selects
    (requested request (precheckOf sitting)) bounds sitting.touched
  cases hevidence : (if sitting.runs.any isRed then ofEvidence alphanumeric sitting request
      else none) with
  | some facts =>
    unfold decideAsked
    simp only [hevidence]
    exact decideLocated_window window facts
  | none =>
  cases hrefusal : standingRefusal selects bounds request with
  | some denial =>
    unfold decideAsked
    simp only [hevidence, hrefusal]
    rfl
  | none =>
  unfold decideAsked
  simp only [hevidence, hrefusal]
  split
  · exact hwindow
  next hopen =>
  cases ofRed alphanumeric sitting request (request.proposedCriterion.map (precheckOf sitting)) with
  | none => exact hwindow
  | some facts =>
    simp only []
    rw [decideLocated_window]
    -- a decision that does not stand is no grant, and leaves the count
    have hnot : (window.expand selects (requested request (precheckOf sitting)) bounds
        sitting.touched).1.1.isGrant = false := by
      cases hd : (window.expand selects (requested request (precheckOf sitting)) bounds
          sitting.touched).1.1 with
      | grant paths decidedBy =>
        rw [hd] at hopen
        simp [standing] at hopen
      | _ => rfl
    rw [hwindow, hnot]
    rfl

/-- A judgement that closes an attempt raises the count when it grants, by one. -/
theorem decideRequest_window (window : GrantWindow) (asked : Option ScopeExpansionRequest) :
    (decideRequest selects alphanumeric sitting bounds .commit window asked).2.granted =
      window.granted + if (decideRequest selects alphanumeric sitting bounds .commit window
        asked).1.any (·.decision.isGrant) then 1 else 0 := by
  cases asked with
  | some request => exact decideAsked_window window
  | none =>
    unfold decideRequest
    dsimp only
    split
    · rfl
    split
    · next facts hfacts => exact decideLocated_window window facts
    · rfl

/-- **What a judgement grants** is an ask left to the cap, below it, and the engine grants it. -/
theorem decideRequest_grant {cap : Nat} (hcap : bounds.maxPerRun = some cap)
    {window : GrantWindow} {asked : Option ScopeExpansionRequest} {paths : List ScopeGlob}
    {decidedBy : Decider}
    (h : (decideRequest selects alphanumeric sitting bounds .commit window asked).1.map
      (·.decision) = some (.grant paths decidedBy)) :
    decidedBy.isPerson = false ∧
      ∃ ask ∈ judgedAsks selects alphanumeric sitting bounds asked, ask.paths = paths ∧
        leftToCap selects ask bounds sitting.touched = true ∧ window.granted < cap := by
  have hask : ∃ ask ∈ judgedAsks selects alphanumeric sitting bounds asked,
      expand selects ask bounds sitting.touched window.granted = .grant paths decidedBy := by
    cases asked with
    | some request =>
      have hd : (decideAsked selects alphanumeric sitting bounds window request).1.decision =
          .grant paths decidedBy := Option.some.inj h
      rcases decideAsked_ask window with ⟨ask, hmem, hexpand⟩ | ⟨denial, hdeny⟩
      · exact ⟨ask, hmem, hexpand.symm.trans hd⟩
      · rw [hdeny] at hd
        cases hd
    | none =>
      unfold decideRequest at h
      dsimp only at h
      split at h
      · cases h
      next hred =>
      split at h
      · next facts hfacts =>
        refine ⟨.located facts.paths facts.criterion, ?_, ?_⟩
        · simp only [judgedAsks, if_neg hred, hfacts, Option.toList_some, List.map_cons,
            List.map_nil, List.mem_singleton]
        · rw [← decideLocated_decision]
          exact Option.some.inj h
      · cases h
  obtain ⟨ask, hmem, hexpand⟩ := hask
  have hisGrant : (expand selects ask bounds sitting.touched window.granted).isGrant = true := by
    rw [hexpand]
    rfl
  have hleft := (isGrant_iff hcap).mp hisGrant
  obtain ⟨by_, hby⟩ := expand_of_leftToCap hleft.1
  have hbelow : ¬ window.granted ≥ cap := by have := hleft.2; omega
  have hpaths : ask.paths = paths := by
    have hgrant := hby window.granted
    rw [hexpand, byCap, hcap] at hgrant
    simp only [if_neg hbelow] at hgrant
    cases hgrant
    rfl
  exact ⟨expand_engine hexpand, ask, hmem, hpaths, hleft⟩

/-- An ask left to the cap is granted below it. -/
theorem decideRequest_of_left {cap : Nat} (hcap : bounds.maxPerRun = some cap)
    {window : GrantWindow} {asked : Option ScopeExpansionRequest} {ask : Ask}
    (hmem : ask ∈ judgedAsks selects alphanumeric sitting bounds asked)
    (hleft : leftToCap selects ask bounds sitting.touched = true) (hbelow : window.granted < cap) :
    ∃ decidedBy, (decideRequest selects alphanumeric sitting bounds .commit window asked).1.map
      (·.decision) = some (.grant ask.paths decidedBy) := by
  have hbelow' : ¬ window.granted ≥ cap := by omega
  cases asked with
  | some request =>
    have hmem' : ask ∈ asksOf selects alphanumeric sitting bounds request := hmem
    obtain ⟨decidedBy, hdecides⟩ := decideAsked_of_capDecides
      (List.any_eq_true.mpr ⟨ask, hmem', hleft⟩ :
        capDecides selects alphanumeric sitting bounds request = true)
    refine ⟨decidedBy, ?_⟩
    show some (decideAsked selects alphanumeric sitting bounds window request).1.decision = _
    rw [hdecides, byCap, hcap, paths_of_asksOf hmem']
    simp only [if_neg hbelow']
  | none =>
    unfold judgedAsks at hmem
    dsimp only at hmem
    split at hmem
    · cases hmem
    next hred =>
    obtain ⟨facts, hfacts, rfl⟩ := List.mem_map.mp hmem
    obtain ⟨decidedBy, hexpand⟩ := expand_of_leftToCap hleft
    refine ⟨decidedBy, ?_⟩
    unfold decideRequest
    dsimp only
    rw [if_neg hred, Option.mem_toList.mp hfacts]
    show some (decideLocated selects sitting bounds window facts).1.decision = _
    rw [decideLocated_decision, hexpand, byCap, hcap]
    simp only [if_neg hbelow']

/-! ## The check and the close -/

/-- A batch's window after the decisions it made. -/
def GrantWindow.after (selects : ScopeGlob → String → Bool) (window : GrantWindow)
    (earlier : List (Ask × Bounds builds × List String)) : GrantWindow :=
  earlier.foldl (fun window e => (window.expand selects e.1 e.2.1 e.2.2).2) window

theorem GrantWindow.le_after (window : GrantWindow)
    (earlier : List (Ask × Bounds builds × List String)) :
    window.granted ≤ (window.after selects earlier).granted := by
  induction earlier generalizing window with
  | nil => exact le_rfl
  | cons e rest ih =>
    have hraised := window.expand_window selects e.1 e.2.1 e.2.2
    have hrest := ih (window.expand selects e.1 e.2.1 e.2.2).2
    show _ ≤ (((window.expand selects e.1 e.2.1 e.2.2).2).after selects rest).granted
    omega

/-- Two counts make the same of an ask left to the cap when they are one, or are below it. -/
theorem byCap_eq_iff {paths : List ScopeGlob} {decidedBy : Decider} {n m : Nat} (hle : n ≤ m) :
    byCap bounds paths decidedBy n = byCap bounds paths decidedBy m ↔
      m = n ∨ ∀ cap ∈ bounds.maxPerRun, m < cap := by
  unfold byCap
  cases hcap : bounds.maxPerRun with
  | none => exact iff_of_true rfl (.inr fun cap h => nomatch h)
  | some cap =>
    simp only []
    constructor
    · intro h
      rw [or_iff_not_imp_right]
      intro hreached
      have hm : m ≥ cap := by
        by_contra hbelow
        exact hreached fun c hc => by
          obtain rfl := Option.some.inj hc
          omega
      rw [if_pos hm] at h
      split at h
      · cases h
        rfl
      · cases h
    · rintro (rfl | hbelow)
      · rfl
      · have hm : m < cap := hbelow cap rfl
        have hn : ¬ n ≥ cap := by omega
        have hm' : ¬ m ≥ cap := by omega
        rw [if_neg hn, if_neg hm']

/-- **The check and the close agree** exactly where the cap does not decide the request, where the
    batch granted nothing the log lacks, or where its count is below the cap. -/
theorem check_agrees_iff (selects : ScopeGlob → String → Bool) (alphanumeric : Char → Bool)
    (sitting : Sitting) (bounds : Bounds builds) (request : ScopeExpansionRequest) (logged : Nat)
    (earlier : List (Ask × Bounds builds × List String)) :
    let batch := (GrantWindow.seeded logged).after selects earlier
    let check := (decideRequest selects alphanumeric sitting bounds .dry (.seeded logged)
      (some request)).1.map (·.decision)
    let close := (decideRequest selects alphanumeric sitting bounds .commit batch
      (some request)).1.map (·.decision)
    (check = close ↔ capDecides selects alphanumeric sitting bounds request = false ∨
      batch.granted = logged ∨ ∀ cap ∈ bounds.maxPerRun, batch.granted < cap) ∧
    ∀ denial, check = some (.deny denial) ↔ close = some (.deny denial) := by
  intro batch check close
  have hle : logged ≤ batch.granted := (GrantWindow.seeded logged).le_after earlier
  have hcheck : check = some (decideAsked selects alphanumeric sitting bounds (.seeded logged)
      request).1.decision := rfl
  have hclose : close =
      some (decideAsked selects alphanumeric sitting bounds batch request).1.decision := rfl
  rw [hcheck, hclose, Option.some_inj]
  cases hcap : capDecides selects alphanumeric sitting bounds request with
  | false =>
    have hsame := decideAsked_congr hcap (.seeded logged) batch
    rw [hsame]
    exact ⟨iff_of_true rfl (.inl rfl), fun denial => Iff.rfl⟩
  | true =>
    obtain ⟨decidedBy, hdecides⟩ := decideAsked_of_capDecides hcap
    rw [hdecides, hdecides]
    show (byCap bounds request.paths decidedBy logged = _ ↔ _) ∧ _
    rw [byCap_eq_iff hle]
    have hnever : ∀ n denial, some (byCap bounds request.paths decidedBy n) ≠
        some (.deny denial) := by
      intro n denial h
      unfold byCap at h
      cases hmax : bounds.maxPerRun with
      | none => simp [hmax] at h
      | some cap =>
        simp only [hmax] at h
        split at h <;> cases h
    refine ⟨by simp, fun denial => iff_of_false (hnever _ denial) (hnever _ denial)⟩

end

/-- One grant made earlier in the batch takes the cap of one: the check promises a grant, and the
    close waits for a person. -/
theorem not_check_agrees :
    let bounds : Bounds fun _ => true := ⟨.rules, 5, some 1, .denying [], []⟩
    let sitting : Sitting := ⟨[], fun _ => (1, none), [], [], []⟩
    let request : ScopeExpansionRequest := ⟨["src/a"], "adjacent", some "cargo test", none⟩
    let batch := (GrantWindow.seeded 0).after plainSelects
      [(.requested ["src/b"] "adjacent" (some ⟨"cargo test", .red 1⟩), bounds, [])]
    (decideRequest plainSelects Char.isAlphanum sitting bounds .dry (.seeded 0)
        (some request)).1.map (·.decision) = some (.grant ["src/a"] .rule) ∧
      (decideRequest plainSelects Char.isAlphanum sitting bounds .commit batch
        (some request)).1.map (·.decision) = some (.escalate ["src/a"] (.capExhausted 1 1)) := by
  decide +kernel

/-! ## Standing refusals -/

section
variable {builds : List ScopeGlob → Bool} {selects : ScopeGlob → String → Bool}
  {alphanumeric : Char → Bool} {sitting : Sitting} {bounds : Bounds builds}
  {request : ScopeExpansionRequest}

/-- The denial that stands against `paths` under `bounds`, whatever the work: what they reach that
    nobody may grant, else a mode that grants nothing. -/
def standingDenial (selects : ScopeGlob → String → Bool) (bounds : Bounds builds)
    (paths : List ScopeGlob) : Option Denial :=
  if refusesWhole (reaching paths (bounds.protection.reachedBy selects)) then
    some (.reachesProtected (reaching paths (bounds.protection.reachedBy selects)))
  else if bounds.mode = .deny then some .modeDeny
  else none

/-- An ask is screened by the denial that stands against its paths, where no precheck denies it
    first. -/
theorem screen_standing {ask : Ask} {denial : Denial}
    (hdenial : standingDenial selects bounds ask.paths = some denial)
    (hprecheck : precheckDenial (origin ask bounds).2.1 = none) :
    screen selects ask bounds = .settled (.deny denial) := by
  have hpaths := origin_paths ask bounds
  unfold screen
  generalize origin ask bounds = o at hpaths hprecheck ⊢
  obtain ⟨paths, proposal, decidedBy, bounded⟩ := o
  subst hpaths
  simp only [] at hprecheck ⊢
  unfold standingDenial at hdenial
  split at hdenial
  · next hwhole =>
    cases hdenial
    rw [if_pos hwhole]
  · next hwhole =>
    split at hdenial
    · next hmode =>
      cases hdenial
      rw [if_neg hwhole, hprecheck]
      simp only [byMode, if_pos hmode]
    · cases hdenial

/-- **A decision that denies with a denial that stands** denies with the one that stands against the
    paths. -/
theorem expand_stands {ask : Ask} {touched : List String} {grantedSoFar : Nat} {denial : Denial}
    (h : expand selects ask bounds touched grantedSoFar = .deny denial)
    (hstands : Denial.stands denial = true) :
    standingDenial selects bounds ask.paths = some denial := by
  unfold expand at h
  have hpaths := origin_paths ask bounds
  cases hscreen : screen selects ask bounds with
  | candidate c =>
    rw [hscreen] at h
    -- the file bound is the one denial of a candidate
    rw [settle_deny h] at hstands
    cases hstands
  | settled decision =>
    rw [hscreen] at h
    subst h
    unfold screen at hscreen
    generalize origin ask bounds = o at hpaths hscreen
    obtain ⟨paths, proposal, decidedBy, bounded⟩ := o
    subst hpaths
    simp only [] at hscreen
    unfold standingDenial
    split at hscreen
    · next hwhole =>
      cases hscreen
      rw [if_pos hwhole]
    next hwhole =>
    rw [if_neg hwhole]
    split at hscreen
    · next precheck hprecheck =>
      cases hscreen
      unfold precheckDenial at hprecheck
      split at hprecheck <;> cases hprecheck <;> cases hstands
    split at hscreen
    · next decision hmode =>
      cases hscreen
      unfold byMode at hmode
      split at hmode
      · next hdeny =>
        cases hmode
        rw [if_pos hdeny]
      · split at hmode
        · cases hmode
        · split at hmode
          · cases hmode
            cases hstands
          · cases hmode
          · cases hmode
    · split at hscreen <;> cases hscreen

/-- The refusal the call that asks gives is the one that stands against the request's paths. -/
theorem standingRefusal_eq : standingRefusal selects bounds request =
    standingDenial selects bounds request.paths := by
  have hunrun : precheckDenial (origin (requested request fun _ => .notRun) bounds).2.1 = none := by
    show precheckDenial (request.proposedCriterion.map fun cmd => (⟨cmd, .notRun⟩ : Proposal)) =
      none
    cases request.proposedCriterion <;> rfl
  cases hdenial : standingDenial selects bounds request.paths with
  | some denial =>
    have hstands : Denial.stands denial = true := by
      unfold standingDenial at hdenial
      split at hdenial
      · cases hdenial
        rfl
      · split at hdenial <;> cases hdenial
        rfl
    rw [standingRefusal, screen_standing hdenial hunrun]
    simp only [hstands, if_true]
  | none =>
    unfold standingRefusal
    split
    · next denial hscreen =>
      rw [if_neg]
      intro hstands
      have hexpand : expand selects (requested request fun _ => .notRun) bounds [] 0 =
          .deny denial := by rw [expand, hscreen]
      have hsome := expand_stands hexpand hstands
      rw [show (requested request fun _ => Precheck.notRun).paths = request.paths from rfl,
        hdenial] at hsome
      cases hsome
    · rfl

/-- What a red output locates of a request meets the denial that stands against its paths. -/
theorem decideLocated_standing {facts : Located} {denial : Denial} (window : GrantWindow)
    (hpaths : facts.paths = request.paths)
    (hdenial : standingDenial selects bounds request.paths = some denial) :
    decideLocated selects sitting bounds window facts =
      (⟨facts.asked, facts.precheck, .deny denial, window.granted⟩, window) := by
  rw [← hpaths] at hdenial
  have hscreen : screen selects (.located facts.paths facts.criterion) bounds =
      .settled (.deny denial) := screen_standing hdenial rfl
  rw [decideLocated, GrantWindow.expand, hscreen]

/-- Where no denial stands against its paths, no ask is denied with one that does. -/
theorem expand_open (ask : Ask) {touched : List String} {grantedSoFar : Nat}
    (hpaths : ask.paths = request.paths)
    (hnone : standingDenial selects bounds request.paths = none) {denial : Denial}
    (hstands : Denial.stands denial = true) :
    expand selects ask bounds touched grantedSoFar ≠ .deny denial := by
  intro hdeny
  have hsome := expand_stands hdeny hstands
  rw [hpaths, hnone] at hsome
  cases hsome

/-- A judgement settled dry or for good gives a request one outcome. -/
theorem decideRequest_asked (settle : Settle) (window : GrantWindow) :
    (decideRequest selects alphanumeric sitting bounds settle window (some request)).1 =
      some (decideAsked selects alphanumeric sitting bounds window request).1 := by
  cases settle <;> rfl

/-- **A standing refusal is one no work changes.**  Where the call that asks refuses, every
    judgement of the request denies it alike and counts nothing; where it does not, no judgement
    denies the request with a denial that stands. -/
theorem standing_refusal_decides (selects : ScopeGlob → String → Bool) (alphanumeric : Char → Bool)
    (bounds : Bounds builds) (request : ScopeExpansionRequest) (sitting : Sitting) (settle : Settle)
    (window : GrantWindow) :
    let judged := decideRequest selects alphanumeric sitting bounds settle window (some request)
    match standingRefusal selects bounds request with
    | some denial =>
      judged.1.map (fun outcome => (outcome.decision, outcome.count)) =
          some (.deny denial, window.granted) ∧ judged.2 = window
    | none =>
      ∀ denial, Denial.stands denial = true →
        judged.1.map (·.decision) ≠ some (.deny denial) := by
  intro judged
  have hjudged : judged.1 =
      some (decideAsked selects alphanumeric sitting bounds window request).1 :=
    decideRequest_asked settle window
  have hrefusal : standingRefusal selects bounds request =
      standingDenial selects bounds request.paths := standingRefusal_eq
  cases hdenial : standingDenial selects bounds request.paths with
  | some denial =>
    rw [hdenial] at hrefusal
    rw [hrefusal]
    -- located or not, the request meets the same screen
    have hasked : ∃ asked precheck,
        decideAsked selects alphanumeric sitting bounds window request =
          (⟨asked, precheck, .deny denial, window.granted⟩, window) := by
      unfold decideAsked
      dsimp only
      split
      · next facts hfacts =>
        have hpaths : facts.paths = request.paths := by
          split at hfacts
          · exact paths_of_evidence hfacts
          · cases hfacts
        exact ⟨_, _, decideLocated_standing window hpaths hdenial⟩
      · rw [hrefusal]
        exact ⟨_, _, rfl⟩
    obtain ⟨asked, precheck, hasked⟩ := hasked
    refine ⟨by rw [hjudged, hasked]; rfl, ?_⟩
    cases settle with
    | dry => rfl
    | commit =>
      show (decideAsked selects alphanumeric sitting bounds window request).2 = window
      rw [hasked]
  | none =>
    rw [hdenial] at hrefusal
    rw [hrefusal]
    intro denial hstands hdeny
    rw [hjudged] at hdeny
    have hdecision : (decideAsked selects alphanumeric sitting bounds window request).1.decision =
        .deny denial := Option.some.inj hdeny
    cases hevidence : (if sitting.runs.any isRed then ofEvidence alphanumeric sitting request
        else none) with
    | some facts =>
      have hpaths : facts.paths = request.paths := by
        split at hevidence
        · exact paths_of_evidence hevidence
        · cases hevidence
      have hlocated : (decideAsked selects alphanumeric sitting bounds window request).1 =
          (decideLocated selects sitting bounds window facts).1 := by
        unfold decideAsked
        simp only [hevidence]
      rw [hlocated, decideLocated_decision] at hdecision
      exact expand_open (.located facts.paths facts.criterion) hpaths hdenial hstands hdecision
    | none =>
      rw [decideAsked_decision window hevidence hrefusal] at hdecision
      have hopen : expand selects (requested request (precheckOf sitting)) bounds sitting.touched
          window.granted ≠ .deny denial :=
        expand_open (requested request (precheckOf sitting)) rfl hdenial hstands
      split at hdecision
      · exact hopen hdecision
      · split at hdecision
        · next facts hfacts =>
          exact expand_open (.located facts.paths facts.criterion) (paths_of_red hfacts) hdenial
            hstands hdecision
        · exact hopen hdecision

end

end Yunta.Expansion
