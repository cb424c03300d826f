/-
  What a failure's outlook promises whoever reads it.

  1. **Actionable** — a wait ends after the failure, a menu lists each remedy once and is not empty,
     every retry names what it waits for, and none waits for a tree that has moved unless it did
     (`Outlook.Actionable`).

  2. **The scan of the stops** — what `stoppedOutlook` gathers, part by part: the menu holds what
     some stop offers (`scan_remedies`), the reason is the first stop's that is stuck
     (`scan_stuck`), and the wait is the latest one (`scan_wait`).

  3. **Main result** — `remedies_actionable`: every failure's outlook is actionable, and the stops of
     a loop answer alike in any order, but for the order of their menu, which follows theirs, and
     for the reason named, which is the first one's that is stuck.
-/
import Yunta.Events.Failure
import Mathlib.Data.List.Nodup

set_option linter.unusedVariables false

namespace Yunta

/-! ## Actionable -/

/-- A remedy that says what it waits for: a retry names it, and the tree is named only once it
    moved. -/
structure Remedy.Sound (facts : Facts) (remedy : Remedy) : Prop where
  names : remedy.option = .retry → remedy.precondition.isSome = true
  moved : remedy.precondition = some .treeChanged → facts.treeMoved = true

/-- An outlook that can be acted on. -/
def Outlook.Actionable (facts : Facts) : Outlook → Prop
  | .waitUntil at_ => facts.failedAt < at_
  | .choose remedies => remedies ≠ [] ∧ remedies.Nodup ∧ ∀ remedy ∈ remedies, remedy.Sound facts
  | .stuck _ => True

/-- A pre-check that stopped a task found something: the source's type holds no empty one. -/
def TaskCause.FoundSome : TaskCause → Prop
  | .preCheck found => found ≠ []
  | _ => True

/-- A failure the source's types hold: every pre-check in it, at any depth, found something. -/
def Failure.FoundSome : Failure → Prop
  | .tasksStopped stopped => ∀ stop ∈ stopped, stop.cause.FoundSome
  | .childFailed _ child => child.FoundSome
  | .unchanged _ failure => failure.FoundSome
  | _ => True

section
variable {facts : Facts}

theorem sound_retryRemedy {precondition : Precondition}
    (h : precondition = .treeChanged → facts.treeMoved = true) :
    (retryRemedy precondition).Sound facts where
  names := fun _ => rfl
  moved := fun hmoved => h (Option.some.inj hmoved)

/-- A remedy that waits for nothing is sound where it is no retry. -/
theorem sound_plain {option : ReservedOption} (h : option ≠ .retry) :
    (⟨option, none⟩ : Remedy).Sound facts where
  names := fun hretry => absurd hretry h
  moved := nofun

theorem actionable_one {remedy : Remedy} (h : remedy.Sound facts) :
    (Outlook.choose [remedy]).Actionable facts := by
  refine ⟨List.cons_ne_nil _ _, List.nodup_singleton _, ?_⟩
  intro other hother
  rw [List.mem_singleton.mp hother]
  exact h

theorem actionable_retry {precondition : Precondition}
    (h : precondition = .treeChanged → facts.treeMoved = true) :
    (retry precondition).Actionable facts :=
  actionable_one (sound_retryRemedy h)

theorem actionable_outside : outside.Actionable facts := actionable_retry nofun

theorem actionable_treeOutlook : (treeOutlook facts).Actionable facts := by
  unfold treeOutlook
  split
  · next hmoved => exact actionable_retry fun _ => hmoved
  · trivial

/-- What a command waits for is the tree only once it moved. -/
theorem exitedPrecondition_moved (h : exitedPrecondition facts = .treeChanged) :
    facts.treeMoved = true := by
  unfold exitedPrecondition at h
  split at h
  · next hmoved => exact hmoved
  · cases h

theorem actionable_causeOutlook (cause : RefusalCause) : (causeOutlook cause).Actionable facts := by
  cases cause with
  | final => trivial
  | contextExhausted => trivial
  | _ => exact actionable_retry nofun

theorem actionable_limitOutlook (limit : AccountLimit) :
    (limitOutlook limit facts).Actionable facts := by
  unfold limitOutlook
  split
  · split
    · next hpast => exact hpast
    · exact actionable_retry nofun
  · exact actionable_retry nofun

theorem actionable_scopeOutlook : (scopeOutlook facts).Actionable facts := by
  unfold scopeOutlook
  split
  · exact actionable_one (sound_plain nofun)
  · trivial

theorem actionable_owedScopeOutlook : (owedScopeOutlook facts).Actionable facts := by
  unfold owedScopeOutlook
  split
  · refine ⟨List.cons_ne_nil _ _, by decide, ?_⟩
    intro remedy hremedy
    rcases List.mem_pair.mp hremedy with rfl | rfl <;> exact sound_plain nofun
  · exact actionable_one (sound_plain nofun)

/-! ## A menu built one remedy at a time -/

theorem mem_pushRemedy {remedies : List Remedy} {remedy other : Remedy} :
    other ∈ pushRemedy remedies remedy ↔ other ∈ remedies ∨ other = remedy := by
  unfold pushRemedy
  split
  · next hmem =>
    constructor
    · exact .inl
    · rintro (h | rfl)
      · exact h
      · exact hmem
  · rw [List.mem_append, List.mem_singleton]

theorem nodup_pushRemedy {remedies : List Remedy} (h : remedies.Nodup) (remedy : Remedy) :
    (pushRemedy remedies remedy).Nodup := by
  unfold pushRemedy
  split
  · exact h
  · next hnew =>
    rw [← List.concat_eq_append]
    exact h.concat hnew

theorem mem_foldl_pushRemedy {found remedies : List Remedy} {other : Remedy} :
    other ∈ found.foldl pushRemedy remedies ↔ other ∈ remedies ∨ other ∈ found := by
  induction found generalizing remedies with
  | nil => simp
  | cons first rest ih => rw [List.foldl_cons, ih, mem_pushRemedy, List.mem_cons, or_assoc]

theorem nodup_foldl_pushRemedy {remedies : List Remedy} (h : remedies.Nodup)
    (found : List Remedy) : (found.foldl pushRemedy remedies).Nodup := by
  induction found generalizing remedies with
  | nil => exact h
  | cons first rest ih => exact ih (nodup_pushRemedy h first)

/-! ## A pre-check -/

/-- A remedy that waits for a command to run. -/
def Remedy.RunsCommand (remedy : Remedy) : Prop := ∃ cmd, remedy = retryRemedy (.commandRunnable cmd)

/-- What the scan of a pre-check leaves: each command once, and something where it found anything. -/
theorem preCheckScan_spec {found : List Surprise} {remedies : List Remedy} {guardRed : Bool}
    {after : List Remedy × Bool} (h : preCheckScan found (remedies, guardRed) = some after)
    (hnodup : remedies.Nodup) (hcommands : ∀ remedy ∈ remedies, remedy.RunsCommand) :
    after.1.Nodup ∧ (∀ remedy ∈ after.1, remedy.RunsCommand) ∧
      (found ≠ [] ∨ remedies ≠ [] ∨ guardRed = true → after.1 ≠ [] ∨ after.2 = true) := by
  induction found generalizing remedies guardRed with
  | nil =>
    obtain rfl := Option.some.inj h
    exact ⟨hnodup, hcommands, fun hsome => hsome.resolve_left fun hne => hne rfl⟩
  | cons first rest ih =>
    cases first with
    | trivialCriterion cmd => cases h
    | brokenGuard cmd =>
      obtain ⟨hnodup', hcommands', hsome⟩ := ih h hnodup hcommands
      exact ⟨hnodup', hcommands', fun _ => hsome (.inr (.inr rfl))⟩
    | unrunnable cmd exitCode =>
      have hpushed : ∀ remedy ∈ pushRemedy remedies (retryRemedy (.commandRunnable cmd)),
          remedy.RunsCommand := by
        intro remedy hremedy
        rcases mem_pushRemedy.mp hremedy with hremedy | rfl
        · exact hcommands remedy hremedy
        · exact ⟨cmd, rfl⟩
      obtain ⟨hnodup', hcommands', hsome⟩ := ih h (nodup_pushRemedy hnodup _) hpushed
      refine ⟨hnodup', hcommands', fun _ => hsome (.inr (.inl ?_))⟩
      exact List.ne_nil_of_mem (mem_pushRemedy.mpr (.inr rfl))

theorem actionable_preCheckOutlook {found : List Surprise} (hfound : found ≠ []) :
    (preCheckOutlook found facts).Actionable facts := by
  unfold preCheckOutlook
  split
  · trivial
  · next remedies guardRed hscan =>
    obtain ⟨hnodup, hcommands, hsome⟩ :=
      preCheckScan_spec hscan List.nodup_nil fun remedy h => absurd h List.not_mem_nil
    have hsound : ∀ remedy ∈ remedies, remedy.Sound facts := by
      intro remedy hremedy
      obtain ⟨cmd, rfl⟩ := hcommands remedy hremedy
      exact sound_retryRemedy nofun
    -- the guard's retry waits for no command
    have hguard : retryRemedy (exitedPrecondition facts) ∉ remedies := by
      intro hremedy
      obtain ⟨cmd, hcmd⟩ := hcommands _ hremedy
      have hprecondition := Option.some.inj (congrArg Remedy.precondition hcmd)
      unfold exitedPrecondition at hprecondition
      split at hprecondition <;> cases hprecondition
    cases guardRed with
    | false =>
      exact ⟨(hsome (.inl hfound)).resolve_right Bool.false_ne_true, hnodup, hsound⟩
    | true =>
      rw [if_pos rfl, ← List.concat_eq_append]
      refine ⟨by simp, hnodup.concat hguard, ?_⟩
      rw [List.concat_eq_append]
      intro remedy hremedy
      rcases List.mem_append.mp hremedy with hremedy | hremedy
      · exact hsound remedy hremedy
      · rw [List.mem_singleton.mp hremedy]
        exact sound_retryRemedy exitedPrecondition_moved

/-- **One stop's outlook is actionable.** -/
theorem actionable_stopOutlook {cause : TaskCause} (h : cause.FoundSome) :
    (stopOutlook facts cause).Actionable facts := by
  cases cause with
  | deviationOwed deviations =>
    refine ⟨List.cons_ne_nil _ _, by decide, ?_⟩
    intro remedy hremedy
    rcases List.mem_pair.mp hremedy with rfl | rfl <;> exact sound_plain nofun
  | preCheck found => exact actionable_preCheckOutlook h
  | unrunnable runs =>
    cases runs with
    | nil => exact actionable_outside
    | cons run rest => exact actionable_retry nofun
  | sessionRefused refusal => exact actionable_causeOutlook refusal.cause
  | sessionLimited limit => exact actionable_limitOutlook limit
  | sessionDied adapter => exact actionable_outside
  | unmet attempts red outside => exact actionable_treeOutlook
  | carriedWorkNoLongerApplies paths => exact actionable_treeOutlook
  | scopeDecisionOwed => trivial
  | criterionUnpassable declared => trivial
  | commandDenied => trivial

/-! ## The scan of the stops -/

/-- The reset a stop waits for. -/
def waitOf (facts : Facts) (stop : TaskStop) : Option Int :=
  match stopOutlook facts stop.cause with
  | .waitUntil at_ => some at_
  | _ => none

/-- The reason a stop is stuck for. -/
def stuckOf (facts : Facts) (stop : TaskStop) : Option Stuck :=
  match stopOutlook facts stop.cause with
  | .stuck reason => some reason
  | _ => none

/-- The remedies a stop offers. -/
def offers (facts : Facts) (stop : TaskStop) : List Remedy :=
  match stopOutlook facts stop.cause with
  | .choose remedies => remedies
  | _ => []

/-- What a loop's menu is offered, in the order of its stops: to go on, and what each stop offers. -/
def offered (facts : Facts) (stopped : List TaskStop) : List Remedy :=
  (if continuable stopped facts then [⟨.continueWork, none⟩] else []) ++
    stopped.flatMap (offers facts)

/-- What the loop over a failure's stops starts from. -/
def StopScan.start (facts : Facts) (stopped : List TaskStop) : StopScan :=
  ⟨if continuable stopped facts then [⟨.continueWork, none⟩] else [], none, none⟩

/-- What it gathers. -/
def StopScan.of (facts : Facts) (stopped : List TaskStop) : StopScan :=
  stopped.foldl (StopScan.step facts) (.start facts stopped)

/-- One stop adds its remedies to the menu, each once. -/
theorem step_remedies (scan : StopScan) (stop : TaskStop) :
    (scan.step facts stop).remedies = (offers facts stop).foldl pushRemedy scan.remedies := by
  unfold StopScan.step offers
  cases stopOutlook facts stop.cause <;> rfl

theorem step_stuck (scan : StopScan) (stop : TaskStop) :
    (scan.step facts stop).stuck = (scan.stuck <|> stuckOf facts stop) := by
  unfold StopScan.step stuckOf
  cases stopOutlook facts stop.cause with
  | stuck reason => rfl
  | _ => cases scan.stuck <;> simp

/-- **The menu holds what was on it and what some stop offers**, each once. -/
theorem scan_remedies (stopped : List TaskStop) (scan : StopScan) :
    (∀ remedy, remedy ∈ (stopped.foldl (StopScan.step facts) scan).remedies ↔
      remedy ∈ scan.remedies ∨ ∃ stop ∈ stopped, remedy ∈ offers facts stop) ∧
    (scan.remedies.Nodup → (stopped.foldl (StopScan.step facts) scan).remedies.Nodup) := by
  induction stopped generalizing scan with
  | nil => exact ⟨fun remedy => by simp, fun h => h⟩
  | cons first rest ih =>
    obtain ⟨hmem, hnodup⟩ := ih (scan.step facts first)
    rw [List.foldl_cons]
    refine ⟨fun remedy => ?_, fun h => hnodup ?_⟩
    · rw [hmem, step_remedies, mem_foldl_pushRemedy, or_assoc]
      simp only [List.mem_cons, exists_eq_or_imp]
    · rw [step_remedies]
      exact nodup_foldl_pushRemedy h _

/-- **The menu follows the stops**: what each offers is pushed in turn. -/
theorem scan_order (stopped : List TaskStop) (scan : StopScan) :
    (stopped.foldl (StopScan.step facts) scan).remedies =
      (stopped.flatMap (offers facts)).foldl pushRemedy scan.remedies := by
  induction stopped generalizing scan with
  | nil => rfl
  | cons first rest ih =>
    rw [List.foldl_cons, ih, step_remedies, List.flatMap_cons, List.foldl_append]

/-- **The reason is the first stop's that is stuck.** -/
theorem scan_stuck (stopped : List TaskStop) (scan : StopScan) :
    (stopped.foldl (StopScan.step facts) scan).stuck =
      (scan.stuck <|> stopped.findSome? (stuckOf facts)) := by
  induction stopped generalizing scan with
  | nil => cases h : scan.stuck <;> simp [h]
  | cons first rest ih =>
    rw [List.foldl_cons, ih, step_stuck, List.findSome?_cons]
    cases scan.stuck with
    | some reason => rfl
    | none => cases stuckOf facts first <;> rfl

/-- **The wait is the latest one.** -/
theorem scan_wait (stopped : List TaskStop) (scan : StopScan) :
    (stopped.foldl (StopScan.step facts) scan).wait =
      (scan.wait.toList ++ stopped.filterMap (waitOf facts)).max? := by
  induction stopped generalizing scan with
  | nil => cases h : scan.wait <;> simp [h]
  | cons first rest ih =>
    rw [List.foldl_cons, ih, List.filterMap_cons]
    cases hstop : stopOutlook facts first.cause with
    | waitUntil at_ =>
      rw [show waitOf facts first = some at_ by rw [waitOf, hstop], StopScan.step, hstop]
      cases scan.wait <;> rfl
    | stuck reason =>
      rw [show waitOf facts first = none by rw [waitOf, hstop], StopScan.step, hstop]
    | choose remedies =>
      rw [show waitOf facts first = none by rw [waitOf, hstop], StopScan.step, hstop]

/-! ## The outlook of the stops -/

section
variable {stopped : List TaskStop}

/-- **The wait ends at the latest reset a stop waits for.** -/
theorem of_wait {at_ : Int} : (StopScan.of facts stopped).wait = some at_ ↔
    (∃ stop ∈ stopped, waitOf facts stop = some at_) ∧
      ∀ stop ∈ stopped, ∀ other, waitOf facts stop = some other → other ≤ at_ := by
  rw [StopScan.of, scan_wait, show (StopScan.start facts stopped).wait = none from rfl,
    Option.toList_none, List.nil_append, List.max?_eq_some_iff]
  simp only [List.mem_filterMap]
  constructor
  · rintro ⟨hmem, hmax⟩
    exact ⟨hmem, fun stop hstop other hother => hmax other ⟨stop, hstop, hother⟩⟩
  · rintro ⟨hmem, hmax⟩
    exact ⟨hmem, fun other ⟨stop, hstop, hother⟩ => hmax stop hstop other hother⟩

/-- Nothing is waited for where no stop waits. -/
theorem of_wait_none : (StopScan.of facts stopped).wait = none ↔
    ∀ stop ∈ stopped, waitOf facts stop = none := by
  rw [StopScan.of, scan_wait, show (StopScan.start facts stopped).wait = none from rfl,
    Option.toList_none, List.nil_append, List.max?_eq_none_iff, List.filterMap_eq_nil_iff]

theorem start_remedies {remedy : Remedy} : remedy ∈ (StopScan.start facts stopped).remedies ↔
    continuable stopped facts = true ∧ remedy = ⟨.continueWork, none⟩ := by
  unfold StopScan.start
  split
  · next h => simp [h]
  · next h => simp [h]

theorem of_remedies {remedy : Remedy} : remedy ∈ (StopScan.of facts stopped).remedies ↔
    (continuable stopped facts = true ∧ remedy = ⟨.continueWork, none⟩) ∨
      ∃ stop ∈ stopped, remedy ∈ offers facts stop := by
  rw [StopScan.of, (scan_remedies stopped _).1, start_remedies]

theorem of_order : (StopScan.of facts stopped).remedies =
    (offered facts stopped).foldl pushRemedy [] := by
  rw [StopScan.of, scan_order, offered, List.foldl_append]
  congr 1
  unfold StopScan.start
  split <;> rfl

theorem of_nodup : (StopScan.of facts stopped).remedies.Nodup := by
  refine (scan_remedies stopped _).2 ?_
  unfold StopScan.start
  split
  · exact List.nodup_singleton _
  · exact List.nodup_nil

theorem of_stuck : (StopScan.of facts stopped).stuck = stopped.findSome? (stuckOf facts) := by
  rw [StopScan.of, scan_stuck]
  rfl

/-- **What the scan answers**: the wait, else the menu, else the reason, else the outside. -/
theorem stoppedOutlook_cases (facts : Facts) (stopped : List TaskStop) :
    (∃ at_, (StopScan.of facts stopped).wait = some at_ ∧
      stoppedOutlook stopped facts = .waitUntil at_) ∨
    (StopScan.of facts stopped).wait = none ∧
      ((StopScan.of facts stopped).remedies ≠ [] ∧
          stoppedOutlook stopped facts = .choose (StopScan.of facts stopped).remedies ∨
        (StopScan.of facts stopped).remedies = [] ∧
          ((∃ reason, (StopScan.of facts stopped).stuck = some reason ∧
              stoppedOutlook stopped facts = .stuck reason) ∨
            (StopScan.of facts stopped).stuck = none ∧
              stoppedOutlook stopped facts = outside)) := by
  have hscan : stopped.foldl (StopScan.step facts)
      ⟨if continuable stopped facts then [⟨.continueWork, none⟩] else [], none, none⟩ =
        StopScan.of facts stopped := rfl
  unfold stoppedOutlook
  dsimp only
  rw [hscan]
  cases (StopScan.of facts stopped).wait with
  | some at_ => exact .inl ⟨at_, rfl, rfl⟩
  | none =>
    refine .inr ⟨rfl, ?_⟩
    cases (StopScan.of facts stopped).remedies with
    | cons first rest => exact .inl ⟨List.cons_ne_nil _ _, rfl⟩
    | nil =>
      refine .inr ⟨rfl, ?_⟩
      cases (StopScan.of facts stopped).stuck with
      | some reason => exact .inl ⟨reason, rfl, rfl⟩
      | none => exact .inr ⟨rfl, rfl⟩

/-- The remedies a stop offers are sound, each of them. -/
theorem sound_offers {stop : TaskStop} (h : stop.cause.FoundSome) {remedy : Remedy}
    (hremedy : remedy ∈ offers facts stop) : remedy.Sound facts := by
  have hactionable : (stopOutlook facts stop.cause).Actionable facts := actionable_stopOutlook h
  unfold offers at hremedy
  cases houtlook : stopOutlook facts stop.cause with
  | choose remedies =>
    rw [houtlook] at hremedy hactionable
    exact hactionable.2.2 remedy hremedy
  | _ =>
    rw [houtlook] at hremedy
    cases hremedy

/-- **A loop whose tasks stopped leaves what can be acted on.** -/
theorem actionable_stoppedOutlook (h : ∀ stop ∈ stopped, stop.cause.FoundSome) :
    (stoppedOutlook stopped facts).Actionable facts := by
  rcases stoppedOutlook_cases facts stopped with
    ⟨at_, hwait, heq⟩ | ⟨-, ⟨hne, heq⟩ | ⟨-, ⟨reason, -, heq⟩ | ⟨-, heq⟩⟩⟩ <;> rw [heq]
  · obtain ⟨⟨stop, hstop, hwaits⟩, -⟩ := of_wait.mp hwait
    have hactionable : (stopOutlook facts stop.cause).Actionable facts :=
      actionable_stopOutlook (h stop hstop)
    unfold waitOf at hwaits
    cases houtlook : stopOutlook facts stop.cause with
    | waitUntil other =>
      rw [houtlook] at hwaits hactionable
      obtain rfl := Option.some.inj hwaits
      exact hactionable
    | _ =>
      rw [houtlook] at hwaits
      cases hwaits
  · refine ⟨hne, of_nodup, fun remedy hremedy => ?_⟩
    rcases of_remedies.mp hremedy with ⟨-, rfl⟩ | ⟨stop, hstop, hoffered⟩
    · exact sound_plain nofun
    · exact sound_offers (h stop hstop) hoffered
  · trivial
  · exact actionable_outside

end

/-- An attempt refused as unchanged is stuck on its plan, or the tree decides. -/
theorem remedies_unchanged (facts : Facts) (since : Nat) (failure : Failure) :
    (Failure.unchanged since failure).remedies facts = .stuck .criteriaWrong ∨
      (Failure.unchanged since failure).remedies facts =
        if facts.treeMoved then failure.remedies facts else .stuck .treeUnchanged := by
  cases failure with
  | planUnpassable unpassable => exact .inl rfl
  | _ => exact .inr rfl

/-- **Every failure's outlook is actionable**, however deep the failure it repeats or its child's. -/
theorem actionable_remedies {failure : Failure} (h : failure.FoundSome) :
    (failure.remedies facts).Actionable facts := by
  induction failure with
  | tasksStopped stopped => exact actionable_stoppedOutlook h
  | childFailed run child ih => exact ih h
  | unchanged since failure ih =>
    rcases remedies_unchanged facts since failure with heq | heq <;> rw [heq]
    · trivial
    · split
      · exact ih h
      · trivial
  | loopCapped node cap => exact actionable_retry nofun
  | scopeOwed owed => exact actionable_owedScopeOutlook
  | sessionRefused refusal => exact actionable_causeOutlook refusal.cause
  | limit limit => exact actionable_limitOutlook limit
  | red => exact actionable_treeOutlook
  | artifacts => exact actionable_treeOutlook
  | scopeViolated outsideScope => exact actionable_scopeOutlook
  | scopeRequested paths reason => exact actionable_scopeOutlook
  | exited code => exact actionable_retry exitedPrecondition_moved
  | runnerUnresolved runner refusal =>
    cases refusal with
    | unknown => trivial
    | noCandidate tried => exact actionable_outside
  | unset | template | artifactName | nestedTooDeep | gateArtifactMissing | capabilityMissing
    | skillMissing | childRefused | confinement | frozenRead | frozenInput | pathsDenied
    | commandDenied | planUnpassable | gateChose | testsAccepted => trivial
  | _ => exact actionable_outside

/-! ## The order of the stops -/

/-- Two outlooks that differ at most in the order of their menu, or in the reason they name. -/
def Outlook.Alike : Outlook → Outlook → Prop
  | .waitUntil at_, .waitUntil other => at_ = other
  | .choose remedies, .choose others => remedies.Perm others
  | .stuck _, .stuck _ => True
  | _, _ => False

theorem continuable_perm {stopped stopped' : List TaskStop} (h : stopped.Perm stopped') :
    continuable stopped facts = continuable stopped' facts := by
  have hany (p : TaskStop → Bool) : stopped.any p = stopped'.any p := by
    rw [Bool.eq_iff_iff, List.any_eq_true, List.any_eq_true]
    simp only [h.mem_iff]
  unfold continuable
  rw [hany, hany]

/-- **The stops of a loop answer alike in any order.** -/
theorem stoppedOutlook_perm {stopped stopped' : List TaskStop} (h : stopped.Perm stopped') :
    (stoppedOutlook stopped facts).Alike (stoppedOutlook stopped' facts) := by
  have hwait : (StopScan.of facts stopped).wait = (StopScan.of facts stopped').wait := by
    refine Option.ext fun at_ => ?_
    rw [of_wait, of_wait]
    simp only [h.mem_iff]
  have hmenu : (StopScan.of facts stopped).remedies.Perm (StopScan.of facts stopped').remedies := by
    refine (List.perm_ext_iff_of_nodup of_nodup of_nodup).mpr fun remedy => ?_
    rw [of_remedies, of_remedies, continuable_perm h]
    simp only [h.mem_iff]
  have hstuck : (StopScan.of facts stopped).stuck = none ↔
      (StopScan.of facts stopped').stuck = none := by
    rw [of_stuck, of_stuck, List.findSome?_eq_none_iff, List.findSome?_eq_none_iff]
    simp only [h.mem_iff]
  rcases stoppedOutlook_cases facts stopped with ⟨at_, hw, heq⟩ | ⟨hw, ⟨hne, heq⟩ | ⟨hnil, hrest⟩⟩
  · rw [hwait] at hw
    rcases stoppedOutlook_cases facts stopped' with ⟨other, hw', heq'⟩ | ⟨hw', -⟩
    · rw [hw] at hw'
      rw [heq, heq']
      exact Option.some.inj hw'
    · rw [hw] at hw'
      cases hw'
  · rw [hwait] at hw
    rcases stoppedOutlook_cases facts stopped' with ⟨other, hw', -⟩ | ⟨-, ⟨-, heq'⟩ | ⟨hnil', -⟩⟩
    · rw [hw] at hw'
      cases hw'
    · rw [heq, heq']
      exact hmenu
    · rw [hnil'] at hmenu
      exact absurd hmenu.eq_nil hne
  · rw [hwait] at hw
    rw [hnil] at hmenu
    rcases stoppedOutlook_cases facts stopped' with ⟨other, hw', -⟩ | ⟨-, ⟨hne', -⟩ | ⟨-, hrest'⟩⟩
    · rw [hw] at hw'
      cases hw'
    · exact absurd hmenu.symm.eq_nil hne'
    · -- both menus are empty, so a reason decides, where any stop is stuck
      rcases hrest with ⟨reason, hs, heq⟩ | ⟨hs, heq⟩
      · rcases hrest' with ⟨reason', -, heq'⟩ | ⟨hs', -⟩
        · rw [heq, heq']
          trivial
        · rw [hstuck.mpr hs'] at hs
          cases hs
      · rcases hrest' with ⟨reason', hs', -⟩ | ⟨-, heq'⟩
        · rw [hstuck.mp hs] at hs'
          cases hs'
        · rw [heq, heq']
          exact List.Perm.refl _

/-- A loop waits until a moment where that is the latest one any of its stops waits for. -/
theorem stoppedOutlook_waits {stopped : List TaskStop} {at_ : Int} :
    stoppedOutlook stopped facts = .waitUntil at_ ↔
      (∃ stop ∈ stopped, stopOutlook facts stop.cause = .waitUntil at_) ∧
        ∀ stop ∈ stopped, ∀ other, stopOutlook facts stop.cause = .waitUntil other →
          other ≤ at_ := by
  have hwaits (stop : TaskStop) (other : Int) :
      stopOutlook facts stop.cause = .waitUntil other ↔ waitOf facts stop = some other := by
    unfold waitOf
    cases stopOutlook facts stop.cause <;> simp
  simp only [hwaits]
  rw [← of_wait]
  rcases stoppedOutlook_cases facts stopped with
    ⟨other, hw, heq⟩ | ⟨hw, ⟨-, heq⟩ | ⟨-, ⟨reason, -, heq⟩ | ⟨-, heq⟩⟩⟩ <;> rw [hw, heq]
  · rw [Outlook.waitUntil.injEq, Option.some.injEq]
  · simp
  · simp
  · constructor <;> exact nofun

/-- **A loop's menu lists what it is offered in that order**, each once; where it is offered nothing
    the one choice is to wait for the outside. -/
theorem stoppedOutlook_menu {stopped : List TaskStop} {menu : List Remedy}
    (h : stoppedOutlook stopped facts = .choose menu) :
    menu = (offered facts stopped).foldl pushRemedy [] ∨
      offered facts stopped = [] ∧ menu = [retryRemedy .outsideTreeChanged] := by
  rcases stoppedOutlook_cases facts stopped with
    ⟨at_, -, heq⟩ | ⟨-, ⟨-, heq⟩ | ⟨hnil, ⟨reason, -, heq⟩ | ⟨-, heq⟩⟩⟩ <;> rw [heq] at h
  · cases h
  · obtain rfl := Outlook.choose.inj h
    exact .inl of_order
  · cases h
  · obtain rfl := Outlook.choose.inj h
    refine .inr ⟨?_, rfl⟩
    rw [of_order] at hnil
    refine List.eq_nil_iff_forall_not_mem.mpr fun remedy hremedy => ?_
    have hmem := mem_foldl_pushRemedy.mpr (.inr hremedy : remedy ∈ [] ∨ _)
    rw [hnil] at hmem
    cases hmem

/-- A stuck loop names the reason of its first stop that is stuck. -/
theorem stoppedOutlook_stuck {stopped : List TaskStop} {reason : Stuck}
    (h : stoppedOutlook stopped facts = .stuck reason) :
    stopped.findSome? (stuckOf facts) = some reason := by
  rcases stoppedOutlook_cases facts stopped with
    ⟨at_, -, heq⟩ | ⟨-, ⟨-, heq⟩ | ⟨-, ⟨named, hnamed, heq⟩ | ⟨-, heq⟩⟩⟩ <;> rw [heq] at h
  · cases h
  · cases h
  · rw [← of_stuck, hnamed, Outlook.stuck.inj h]
  · cases h

/-- **An outlook can be acted on**: it waits past the failure, or lists each remedy once and names
    what every retry waits for, or says why nothing helps.  The stops of a loop answer alike in any
    order, and wait for the latest reset where any of them waits; their menu lists what they offer
    in their own order, and a reason named is the first one's that is stuck. -/
theorem remedies_actionable (facts : Facts) :
    (∀ failure : Failure, failure.FoundSome → (failure.remedies facts).Actionable facts) ∧
    (∀ stopped stopped' : List TaskStop, stopped.Perm stopped' →
      ((Failure.tasksStopped stopped).remedies facts).Alike
        ((Failure.tasksStopped stopped').remedies facts)) ∧
    (∀ (stopped : List TaskStop) (stop : TaskStop) (at_ : Int), stop ∈ stopped →
      stopOutlook facts stop.cause = .waitUntil at_ →
        ∃ latest, (Failure.tasksStopped stopped).remedies facts = .waitUntil latest ∧
          (∃ last ∈ stopped, stopOutlook facts last.cause = .waitUntil latest) ∧
          ∀ other ∈ stopped, ∀ reset, stopOutlook facts other.cause = .waitUntil reset →
            reset ≤ latest) ∧
    (∀ (stopped : List TaskStop) (menu : List Remedy),
      (Failure.tasksStopped stopped).remedies facts = .choose menu →
        menu = (offered facts stopped).foldl pushRemedy [] ∨
          offered facts stopped = [] ∧ menu = [retryRemedy .outsideTreeChanged]) ∧
    ∀ (stopped : List TaskStop) (reason : Stuck),
      (Failure.tasksStopped stopped).remedies facts = .stuck reason →
        stopped.findSome? (stuckOf facts) = some reason := by
  refine ⟨fun failure h => actionable_remedies h, fun stopped stopped' h => stoppedOutlook_perm h,
    fun stopped stop at_ hstop hwaits => ?_, fun stopped menu h => stoppedOutlook_menu h,
    fun stopped reason h => stoppedOutlook_stuck h⟩
  have hsome : (StopScan.of facts stopped).wait ≠ none := by
    intro hnone
    have hstopNone := of_wait_none.mp hnone stop hstop
    rw [waitOf, hwaits] at hstopNone
    cases hstopNone
  obtain ⟨latest, hlatest⟩ := Option.ne_none_iff_exists'.mp hsome
  have heq : stoppedOutlook stopped facts = .waitUntil latest := by
    rcases stoppedOutlook_cases facts stopped with ⟨other, hw, heq⟩ | ⟨hw, -⟩
    · rw [hlatest] at hw
      rw [heq, Option.some.inj hw]
    · exact absurd hw hsome
  exact ⟨latest, heq, stoppedOutlook_waits.mp heq⟩

/-- A task stopped on a limit that resets at `at_`. -/
def limitedUntil (at_ : Int) : TaskStop := ⟨"t", .sessionLimited ⟨some at_, ""⟩⟩

/-- A plan whose tasks met two limits waits for the later one, whichever stopped first. -/
theorem remedies_actionable_limits :
    ((Failure.childFailed "child" (.tasksStopped [limitedUntil 9, limitedUntil 7])).remedies
        ⟨5, false, false, false⟩).Actionable ⟨5, false, false, false⟩ ∧
    ((Failure.tasksStopped [limitedUntil 9, limitedUntil 7]).remedies
        ⟨5, false, false, false⟩).Alike
      ((Failure.tasksStopped [limitedUntil 7, limitedUntil 9]).remedies
        ⟨5, false, false, false⟩) ∧
    (∃ latest, (Failure.tasksStopped [limitedUntil 9, limitedUntil 7]).remedies
      ⟨5, false, false, false⟩ = .waitUntil latest ∧ 7 ≤ latest) ∧
    [retryRemedy .limitLifted] =
      (offered ⟨8, false, false, false⟩ [limitedUntil 7]).foldl pushRemedy [] ∧
    [⟨"a", .commandDenied⟩, ⟨"b", .scopeDecisionOwed⟩].findSome? (stuckOf ⟨5, false, false, false⟩) =
      some .projectDenies := by
  have hfound : (Failure.childFailed "child"
      (.tasksStopped [limitedUntil 9, limitedUntil 7])).FoundSome := by
    intro stop hstop
    rcases List.mem_pair.mp hstop with rfl | rfl <;> trivial
  obtain ⟨hactionable, halike, hlatest, -, hstuck⟩ := remedies_actionable ⟨5, false, false, false⟩
  have hmenu := (remedies_actionable ⟨8, false, false, false⟩).2.2.2.1
    [limitedUntil 7] [retryRemedy .limitLifted] rfl
  obtain ⟨latest, heq, -, hmax⟩ := hlatest [limitedUntil 9, limitedUntil 7] (limitedUntil 7) 7
    (by simp) (by decide)
  refine ⟨hactionable _ hfound, halike _ _ (List.Perm.swap ..), ⟨latest, heq,
    hmax (limitedUntil 7) (by simp) 7 (by decide)⟩, hmenu.resolve_right ?_, hstuck _ _ rfl⟩
  rintro ⟨-, hone⟩
  cases hone

/-- **The order of the stops shows**: in the menu, and in the reason a stuck loop names. -/
theorem not_remedies_unordered :
    (∃ facts stopped stopped', List.Perm stopped stopped' ∧
      ∃ menu menu', (Failure.tasksStopped stopped).remedies facts = .choose menu ∧
        (Failure.tasksStopped stopped').remedies facts = .choose menu' ∧ menu ≠ menu') ∧
    ∃ facts stopped stopped', List.Perm stopped stopped' ∧
      ∃ reason reason', (Failure.tasksStopped stopped).remedies facts = .stuck reason ∧
        (Failure.tasksStopped stopped').remedies facts = .stuck reason' ∧ reason ≠ reason' := by
  refine ⟨⟨⟨0, false, false, false⟩, [⟨"a", .sessionDied "cli"⟩, ⟨"b", .deviationOwed []⟩],
    [⟨"b", .deviationOwed []⟩, ⟨"a", .sessionDied "cli"⟩], .swap .., ?_⟩,
    ⟨⟨0, false, false, false⟩, [⟨"a", .commandDenied⟩, ⟨"b", .scopeDecisionOwed⟩],
    [⟨"b", .scopeDecisionOwed⟩, ⟨"a", .commandDenied⟩], .swap .., ?_⟩⟩
  · exact ⟨_, _, rfl, rfl, by decide⟩
  · exact ⟨_, _, rfl, rfl, by decide⟩

end

end Yunta
