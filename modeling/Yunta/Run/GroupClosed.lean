/-
  A group that recorded its terminal, over every run of its machine.

  1. **One act** — `Alive` holds of a group's run: what its log says of the children, what its
     process holds, and, once the group closed, that it closed well.  Each act that leaves no child
     open behind a decided group keeps it (`LeavesNone`).

  2. **Runs** — in every run of such acts a group that recorded its terminal left no child
     Running and closed as its policy says (`closedWell_of_reached`).  A race entered again beside
     its winner closes over the losers a cut left Running (`not_closedWell`).
-/
import Yunta.Run.GroupRuns

set_option linter.unusedVariables false

namespace Yunta

variable {g : Group} {default_ : OnInterrupt} {outcomes : Outcomes}

/-! ## One act -/

theorem append_terminalOf {run : RunState} {child : NodeId} (seq : Nat) (at_ : Int)
    (finished : Bool) (failure : Failure) (hrunning : run.isRunning child = true) :
    (finished = true ∧
        (run.append (nodeEvent seq at_ child (terminalOf finished failure))).Finished child) ∨
      (finished = false ∧
        (run.append (nodeEvent seq at_ child (terminalOf finished failure))).Failed child) := by
  cases finished with
  | true =>
    obtain ⟨tokens, hstate⟩ := run.append_finished seq at_ child {} hrunning
    refine .inl ⟨rfl, ?_⟩
    show ((run.append _).nodes.state child).any _ = true
    rw [terminalOf, if_pos rfl, hstate]
    rfl
  | false =>
    obtain ⟨tokens, hstate⟩ := run.append_failed seq at_ child { failure := failure } hrunning
    refine .inr ⟨rfl, ?_⟩
    show ((run.append _).nodes.state child).any _ = true
    rw [terminalOf, if_neg Bool.false_ne_true, hstate]
    rfl

/-- What holds of a group's run, whatever its acts. -/
structure Alive (g : Group) (outcomes : Outcomes) (s : GroupLife) : Prop where
  recorded : Recorded g outcomes s.run
  entered : ∀ a ∈ s.attempt, Entered g a s.run
  clean : ∀ a ∈ s.attempt, Clean g a
  closed : closedNode s.run g.id = true → ClosedWell g outcomes s.run

theorem closedNode_iff {run : RunState} {node : NodeId} :
    closedNode run node = true ↔ run.Finished node ∨ run.Failed node := by
  unfold closedNode RunState.Finished RunState.Failed
  cases run.nodes.state node with
  | none => simp
  | some st => simp

/-- A group whose process runs has recorded nothing. -/
theorem Alive.of_entered {a : GroupAttempt} {run : RunState} (hrec : Recorded g outcomes run)
    (h : Entered g a run) (hclean : Clean g a) :
    Alive g outcomes { run := run, attempt := some a } := by
  refine ⟨hrec, ?_, ?_, ?_⟩
  · intro a' ha'
    obtain rfl := Option.some.inj ha'
    exact h
  · intro a' ha'
    obtain rfl := Option.some.inj ha'
    exact hclean
  · intro hclosed
    exfalso
    have hopen := openChild_of_running h.running
    rcases closedNode_iff.mp hclosed with hf | hf
    · exact hopen.1 hf
    · exact hopen.2 hf

/-- What a race hears last decides it where nothing did before. -/
theorem decidedBy_append (returned : List (NodeId × NodeEnd)) (child : NodeId) (end_ : NodeEnd) :
    decidedBy (returned ++ [(child, end_)]) =
      (decidedBy returned).or (if end_.decides then some end_ else none) := by
  rw [decidedBy, List.map_append, List.find?_append]
  cases hdecides : end_.decides <;> simp [decidedBy, hdecides]

section
variable {s s' : GroupLife} {a : GroupAttempt}

/-- A node's own event moves it alone. -/
theorem moved_append {run : RunState} {child : NodeId} (hid : child ∈ g.ids)
    (hopen : OpenChild run child) (seq : Nat) (at_ : Int) (e : NodeEvent) :
    Moved g run (run.append (nodeEvent seq at_ child e)) child :=
  ⟨hid, hopen, fun other hne => run.append_other seq at_ child e hne⟩

/-- **A child recorded failed as uncertain keeps it.** -/
theorem Alive.failUncertain (h : Alive g outcomes s) (ha : s.attempt = some a) {child : NodeId}
    {seq : Nat} {at_ : Int} (hid : child ∈ g.ids) (howing : a.phase child = .owing) :
    Alive g outcomes
      { run := s.run.append (nodeEvent seq at_ child (.failed { failure := .uncertain child }))
        attempt := some { a with phase := Function.update a.phase child .settled } } := by
  have hent := h.entered a ha
  have hrunning : s.run.isRunning child = true := by
    have hphase := hent.phases child hid
    rw [howing] at hphase
    exact hphase
  have hm := moved_append hid (openChild_of_running hrunning) seq at_
    (.failed { failure := .uncertain child })
  obtain ⟨tokens, hstate⟩ := s.run.append_failed seq at_ child
    { failure := .uncertain child } hrunning
  have hf : (s.run.append (nodeEvent seq at_ child
      (.failed { failure := .uncertain child }))).Failed child := by
    rw [RunState.Failed, hstate]
    rfl
  have hun : failedUncertain (s.run.append (nodeEvent seq at_ child
      (.failed { failure := .uncertain child }))) child = true := by
    rw [failedUncertain, hstate]
    simp
  have hent' := hent.move hm .settled [] (by simp [howing]) (.inr hf) (by simp) (by simp)
    (fun hfin => absurd hf hfin.alone.1) (fun _ => .inl (hent.owed child hid howing))
    (fun _ => hf) (by simp) (by simp) (by simp) (by simp)
  rw [List.append_nil] at hent'
  refine .of_entered (h.recorded.move hm ?_ ?_ ?_) hent' (h.clean a ha)
  · intro hfin
    exact absurd hf hfin.alone.1
  · intro _
    exact .inr (.inl hun)
  · rw [hstate]
    rfl

/-- **A child that starts keeps it.** -/
theorem Alive.startChild (h : Alive g outcomes s) (ha : s.attempt = some a) {child : NodeId}
    {seq : Nat} {at_ : Int} {p : NodeStartedPayload} (hid : child ∈ g.ids)
    (hwaiting : a.phase child = .waiting) (hatOnce : a.atOnce g = none) :
    Alive g outcomes
      { run := s.run.append (nodeEvent seq at_ child (.started p))
        attempt := some { a with phase := Function.update a.phase child .working } } := by
  have hent := h.entered a ha
  have hopen : OpenChild s.run child := by
    have hphase := hent.phases child hid
    rw [hwaiting] at hphase
    rcases hphase with hnone | hrunning
    · exact ⟨fun hf => hf.alone.2.2 hnone, fun hf => hf.alone.2.2 hnone⟩
    · exact openChild_of_running hrunning
  have hm := moved_append hid hopen seq at_ (.started p)
  have hstate := s.run.append_started seq at_ child p
  have hrunning : (s.run.append (nodeEvent seq at_ child (.started p))).isRunning child = true := by
    rw [RunState.isRunning, hstate]
    rfl
  have hopen' := openChild_of_running hrunning
  have hent' := hent.move hm .working [] (by simp [hwaiting]) hrunning (by simp) (by simp)
    (fun hf => absurd hf hopen'.1) (fun hf => absurd hf hopen'.2) ?_ ?_ (by simp) (by simp) ?_
  · rw [List.append_nil] at hent'
    refine .of_entered (h.recorded.move hm ?_ ?_ ?_) hent' (h.clean a ha)
    · intro hf
      exact absurd hf hopen'.1
    · intro hf
      exact absurd hf hopen'.2
    · rw [hstate]
      rfl
  · intro hplanned
    rcases (hent.planned child hplanned).2 with howing | hf
    · rw [hwaiting] at howing
      cases howing
    · exact absurd hf hopen.2
  · intro _
    exact hent.dispatched child hid (.inl hwaiting)
  · intro hne
    exact absurd hatOnce hne

/-- **A child that ends keeps it**: as it would, or failing because a sibling won. -/
theorem Alive.endChild (h : Alive g outcomes s) (ha : s.attempt = some a) {child : NodeId}
    {seq : Nat} {at_ : Int} {finished : Bool} {failure : Failure} (hid : child ∈ g.ids)
    (hworking : a.phase child = .working)
    (hends : finished = outcomes.finishes child ∨ finished = false ∧ a.cancelled g = true)
    (hleaves : finished = true → g.join = .any → decidedBy a.returned = none →
      ∀ result ∈ a.returned, result.2 = .failed) :
    Alive g outcomes
      { run := s.run.append (nodeEvent seq at_ child (terminalOf finished failure))
        attempt := some
          { a with
            phase := Function.update a.phase child .settled
            returned := a.returned ++ [(child, if finished then .finished else .failed)] } } := by
  have hent := h.entered a ha
  have hrunning : s.run.isRunning child = true := by
    have hphase := hent.phases child hid
    rw [hworking] at hphase
    exact hphase
  have hm := moved_append hid (openChild_of_running hrunning) seq at_ (terminalOf finished failure)
  have hstate := append_terminalOf seq at_ finished failure hrunning
  have hplanned : child ∉ a.plan.alreadyFailed := by
    intro hmem
    rcases (hent.planned child hmem).2 with howing | hf
    · rw [hworking] at howing
      cases howing
    · exact (openChild_of_running hrunning).2 hf
  have hwaits : ((s.run.append (nodeEvent seq at_ child
      (terminalOf finished failure))).nodes.state child).any NodeState.isWaiting = false := by
    rcases hstate with ⟨-, hf⟩ | ⟨-, hf⟩
    · exact hf.not_waiting
    · exact hf.not_waiting
  refine .of_entered (h.recorded.move hm ?_ ?_ hwaits)
    (hent.move hm .settled _ (by simp [hworking]) ?_ (by simp) (by simp) ?_ ?_ ?_ ?_ ?_ (by simp)
      (by simp)) ?_
  · intro hf
    rcases hstate with ⟨hfin, -⟩ | ⟨-, hfail⟩
    · rcases hends with heq | ⟨hno, -⟩
      · rw [← heq, hfin]
      · rw [hfin] at hno
        cases hno
    · exact absurd hf hfail.alone.1
  · intro hf
    rcases hstate with ⟨-, hfin⟩ | ⟨hfail, -⟩
    · exact absurd hfin hf.alone.1
    · rcases hends with heq | ⟨-, hcancelled⟩
      · exact .inl (heq.symm.trans hfail)
      · -- a race is cancelled once a child won it
        obtain ⟨hany, hwon⟩ := Bool.and_eq_true_iff.mp hcancelled
        obtain ⟨result, hret, hfin⟩ := List.any_eq_true.mp hwon
        obtain ⟨hmem, ⟨-, hf'⟩ | ⟨hfail', -⟩ | ⟨hopen, -⟩⟩ := hent.returned result hret
        · exact .inr (.inr ⟨of_decide_eq_true hany, result.1, hmem, hf'⟩)
        · rw [of_decide_eq_true hfin] at hfail'
          cases hfail'
        · rw [of_decide_eq_true hfin] at hopen
          cases hopen
  · exact hstate.imp And.right And.right
  · intro hf
    rcases hstate with ⟨hfin, -⟩ | ⟨-, hfail⟩
    · simp [hfin]
    · exact absurd hf hfail.alone.1
  · intro hf
    rcases hstate with ⟨-, hfin⟩ | ⟨hfail, -⟩
    · exact absurd hfin hf.alone.1
    · exact .inr (by simp [hfail])
  · intro hmem
    exact absurd hmem hplanned
  · intro _
    exact hent.dispatched child hid (.inr (.inl hworking))
  · intro result hret
    obtain rfl := List.mem_singleton.mp hret
    refine ⟨rfl, ?_⟩
    rcases hstate with ⟨hfin, hf⟩ | ⟨hfail, hf⟩
    · exact .inl ⟨by simp [hfin], hf⟩
    · exact .inr (.inl ⟨by simp [hfail], hf⟩)
  · intro hjoin hwon result hret
    have hclosed : (if finished then NodeEnd.finished else .failed).isOpen = false := by
      cases finished <;> rfl
    rcases List.mem_append.mp hret with hold | hnew
    · cases hdecided : decidedBy a.returned with
      | some end_ =>
        rw [decidedBy_append, hdecided] at hwon
        exact h.clean a ha hjoin (hdecided.trans hwon) result hold
      | none =>
        -- only a finish decides the race now, and no child paused before it
        have hfinished : finished = true := by
          rw [decidedBy_append, hdecided] at hwon
          cases finished with
          | true => rfl
          | false => cases hwon
        rw [hleaves hfinished hjoin hdecided result hold]
        rfl
    · obtain rfl := List.mem_singleton.mp hnew
      exact hclosed

/-- **A child that returns with no terminal keeps it**, of no race a sibling won. -/
theorem Alive.leaveChild (h : Alive g outcomes s) (ha : s.attempt = some a) {child : NodeId}
    {reason : Option PauseReason} (hid : child ∈ g.ids) (hworking : a.phase child = .working)
    (hleaves : g.join = .any → decidedBy a.returned ≠ some .finished) :
    Alive g outcomes
      { run := s.run
        attempt := some
          { a with
            phase := Function.update a.phase child .left
            returned := a.returned ++ [(child, (reason.map .paused).getD .interrupted)] } } := by
  have hent := h.entered a ha
  have hrunning : s.run.isRunning child = true := by
    have hphase := hent.phases child hid
    rw [hworking] at hphase
    exact hphase
  have hopen := openChild_of_running hrunning
  have hm : Moved g s.run s.run child := ⟨hid, hopen, fun _ _ => rfl⟩
  have hleft : ((reason.map NodeEnd.paused).getD .interrupted).isOpen = true := by
    cases reason <;> rfl
  refine .of_entered h.recorded (hent.move hm .left _ (by simp [hworking]) hrunning (by simp)
    (by simp) (fun hf => absurd hf hopen.1) (fun hf => absurd hf hopen.2) ?_ ?_ ?_ ?_ ?_) ?_
  · intro hmem
    rcases (hent.planned child hmem).2 with howing | hf
    · rw [hworking] at howing
      cases howing
    · exact hf
  · intro _
    exact hent.dispatched child hid (.inr (.inl hworking))
  · intro result hret
    obtain rfl := List.mem_singleton.mp hret
    exact ⟨rfl, .inr (.inr ⟨hleft, rfl⟩)⟩
  · exact fun _ => ⟨_, hleft, List.mem_singleton_self _⟩
  · exact fun hne => absurd hworking (hent.decided hne child hid).1
  · intro hjoin hwon
    rw [decidedBy_append] at hwon
    cases hdecided : decidedBy a.returned with
    | some end_ =>
      rw [hdecided] at hwon
      exact absurd (hdecided.trans hwon) (hleaves hjoin)
    | none =>
      rw [hdecided] at hwon
      cases reason <;> cases hwon

/-- The states of a group's children after the group's own event. -/
theorem children_append (run : RunState) (seq : Nat) (at_ : Int) (e : NodeEvent) :
    ∀ child ∈ g.ids,
      (run.append (nodeEvent seq at_ g.id e)).nodes.state child = run.nodes.state child :=
  fun child hid => run.append_other seq at_ g.id e (ids_ne hid)

/-- What a group's closing records of the group. -/
theorem append_closing (outcomes : Outcomes) {run : RunState} (seq : Nat) (at_ : Int) (end_ : GroupEnd)
    (hrunning : run.isRunning g.id = true) :
    (run.append (nodeEvent seq at_ g.id (closing outcomes end_))).Finished g.id ↔
      closing outcomes end_ = .finished {} := by
  have hcases : closing outcomes end_ = .finished {} ∨
      ∃ p, closing outcomes end_ = .failed p := by
    unfold closing
    split
    · exact .inr ⟨_, rfl⟩
    · exact .inr ⟨_, rfl⟩
    · exact .inl rfl
  rcases hcases with hfin | ⟨p, hfail⟩
  · rw [hfin]
    refine iff_of_true ?_ rfl
    obtain ⟨tokens, hstate⟩ := run.append_finished seq at_ g.id {} hrunning
    rw [RunState.Finished, hstate]
    rfl
  · rw [hfail]
    refine iff_of_false ?_ (by simp)
    obtain ⟨tokens, hstate⟩ := run.append_failed seq at_ g.id p hrunning
    rw [RunState.Finished, hstate]
    exact Bool.false_ne_true

/-- A group whose children joined closes as its own close says. -/
theorem closing_of_finished {end_ : GroupEnd} (h : end_.isFinished = true) :
    closing outcomes end_ = .finished {} ↔ outcomes.refused = none := by
  cases end_ with
  | childrenFinished count => cases hr : outcomes.refused <;> simp [closing, hr]
  | succeededFirst winner => cases hr : outcomes.refused <;> simp [closing, hr]
  | _ => cases h

theorem Entered.closing_finished {run : RunState} (h : Entered g a run) (hc : Closable g a) :
    closing outcomes (a.end_ g) = .finished {} ↔
      ((a.end_ g).isFinished && outcomes.refused.isNone) = true := by
  rcases h.end_cases hc with hend | ⟨failed, hend⟩
  · rw [closing_of_finished hend, hend]
    simp
  · rw [hend]
    simp [closing]

/-- **A group that closes closes well.** -/
theorem Alive.close (h : Alive g outcomes s) (ha : s.attempt = some a) (hc : Closable g a)
    (seq : Nat) (at_ : Int) :
    Alive g outcomes
      { run := s.run.append (nodeEvent seq at_ g.id (closing outcomes (a.end_ g))) } := by
  have hent := h.entered a ha
  have hsame := children_append (g := g) s.run seq at_ (closing outcomes (a.end_ g))
  have hfin := append_closing outcomes seq at_ (a.end_ g) hent.running
  have hfinished : ∀ child ∈ g.ids, ((s.run.append (nodeEvent seq at_ g.id
      (closing outcomes (a.end_ g)))).Finished child ↔ s.run.Finished child) := by
    intro child hid
    rw [RunState.Finished, hsame child hid]
    rfl
  have hpassed : (s.run.append (nodeEvent seq at_ g.id
      (closing outcomes (a.end_ g)))).Finished g.id → (a.end_ g).isFinished = true := by
    intro hf
    exact (Bool.and_eq_true_iff.mp ((hent.closing_finished hc).mp (hfin.mp hf))).1
  refine ⟨h.recorded.congr hsame, fun _ ha' => absurd ha' (by simp),
    fun _ ha' => absurd ha' (by simp), fun _ => ⟨?_, ?_, ?_, ?_⟩⟩
  · intro child hid
    rw [hfinished child hid, RunState.Failed, hsame child hid]
    exact hent.settled hc hid
  · intro hjoin hf child hid
    rcases hent.end_all hc hjoin with ⟨-, hall⟩ | ⟨⟨failed, hend⟩, -⟩
    · exact (hfinished child hid).mpr (hall child hid)
    · have hpass := hpassed hf
      rw [hend] at hpass
      cases hpass
  · intro hjoin hf
    rcases hent.end_any hc hjoin with ⟨-, child, hid, hdone⟩ | ⟨⟨failed, hend⟩, -⟩
    · exact ⟨child, hid, (hfinished child hid).mpr hdone⟩
    · have hpass := hpassed hf
      rw [hend] at hpass
      cases hpass
  · refine ⟨endsOf outcomes s.run, ?_, ?_⟩
    · intro child hid
      unfold endsOf
      cases hun : failedUncertain s.run child with
      | false => exact .inl (by simp)
      | true =>
        refine .inr ⟨by simp, ?_⟩
        rw [failedUncertain, hsame child hid]
        exact hun
    · rw [hfin, hent.closing_finished hc, hent.end_uncut hc h.recorded]

/-- **A process that enters keeps it**, where its log decides the group over no orphan it runs. -/
theorem Alive.enter (h : Alive g outcomes s) {seq : Nat} {at_ : Int} {p : NodeStartedPayload}
    (hsettled : LeavesNone g default_ s (.enter seq at_ p)) :
    Alive g outcomes
      { run := s.run.append (nodeEvent seq at_ g.id (.started p))
        attempt := some
          (GroupAttempt.of g default_ (s.run.append (nodeEvent seq at_ g.id (.started p)))) } := by
  have hsame := children_append (g := g) s.run seq at_ (.started p)
  have hrec := h.recorded.congr hsame
  refine .of_entered hrec (entered_of hrec ?_ ?_) (fun _ hwon => by cases hwon)
  · rw [RunState.isRunning, RunState.append_started]
    rfl
  · intro hdecided child hid horphan
    rw [planChildren_congr hsame, alreadyWon_congr hsame] at hdecided
    have hrunning : s.run.isRunning child = true := by
      rwa [RunState.isRunning, hsame child hid] at horphan
    have hmem := hsettled hdecided child hid hrunning
    have huncertain : (planChildren g.children (s.run.append
        (nodeEvent seq at_ g.id (.started p))) default_).uncertain =
        (planChildren g.children s.run default_).uncertain := by
      rw [planChildren_congr hsame]
    show child ∈ (planChildren g.children (s.run.append
      (nodeEvent seq at_ g.id (.started p))) default_).uncertain
    rw [huncertain]
    exact hmem

/-- A process gone leaves what its log says. -/
theorem Alive.gone (h : Alive g outcomes s) : Alive g outcomes { run := s.run } :=
  ⟨h.recorded, fun _ ha => absurd ha (by simp), fun _ ha => absurd ha (by simp), h.closed⟩

/-- **Every act keeps it.** -/
theorem Alive.step {act : GroupAct} (h : Alive g outcomes s)
    (hsettled : LeavesNone g default_ s act)
    (hstep : GroupLife.step g default_ outcomes s act = some s') : Alive g outcomes s' := by
  unfold GroupLife.step at hstep
  cases ha : s.attempt with
  | none =>
    rw [ha] at hstep
    cases act with
    | enter seq at_ p =>
      dsimp only at hstep
      split at hstep
      · cases hstep
      · obtain rfl := Option.some.inj hstep
        exact h.enter hsettled
    | cut =>
      obtain rfl := Option.some.inj hstep
      exact h
    | _ => cases hstep
  | some a =>
    rw [ha] at hstep
    cases act with
    | failUncertain child seq at_ =>
      simp only [GroupAttempt.step, Option.ite_none_right_eq_some, Bool.and_eq_true,
        decide_eq_true_eq, List.contains_iff_mem, Option.some.injEq] at hstep
      obtain ⟨⟨hid, howing⟩, rfl⟩ := hstep
      exact h.failUncertain ha hid howing
    | startChild child seq at_ p =>
      simp only [GroupAttempt.step, Option.ite_none_right_eq_some, Bool.and_eq_true,
        decide_eq_true_eq, List.contains_iff_mem, Option.some.injEq,
        Option.isNone_iff_eq_none] at hstep
      obtain ⟨⟨⟨⟨-, hatOnce⟩, hid⟩, hwaiting⟩, rfl⟩ := hstep
      exact h.startChild ha hid hwaiting hatOnce
    | endChild child seq at_ finished failure =>
      simp only [GroupAttempt.step, Option.ite_none_right_eq_some, Bool.and_eq_true,
        Bool.or_eq_true, Bool.not_eq_true', decide_eq_true_eq, List.contains_iff_mem,
        Option.some.injEq] at hstep
      obtain ⟨⟨⟨hid, hworking⟩, hends⟩, rfl⟩ := hstep
      exact h.endChild ha hid hworking hends fun hfin hjoin => hsettled hfin hjoin a ha
    | leaveChild child reason =>
      simp only [GroupAttempt.step, Option.ite_none_right_eq_some, Bool.and_eq_true,
        decide_eq_true_eq, List.contains_iff_mem, Option.some.injEq] at hstep
      obtain ⟨⟨hid, hworking⟩, rfl⟩ := hstep
      exact h.leaveChild ha hid hworking fun hjoin => hsettled hjoin a ha
    | close seq at_ =>
      simp only [GroupAttempt.step, Option.ite_none_right_eq_some, Bool.and_eq_true,
        Bool.or_eq_true] at hstep
      obtain ⟨⟨hpaid, hdone⟩, hstep⟩ := hstep
      cases hcloses : (a.end_ g).closes with
      | false =>
        rw [hcloses, if_neg Bool.false_ne_true] at hstep
        obtain rfl := Option.some.inj hstep
        exact h.gone
      | true =>
        rw [hcloses, if_pos rfl] at hstep
        obtain rfl := Option.some.inj hstep
        refine h.close ha ⟨?_, ?_⟩ seq at_
        · intro child hid
          have hall := List.all_eq_true.mp hpaid child hid
          exact of_decide_eq_true hall
        · by_cases hatOnce : a.atOnce g = none
          · have hall := hdone.resolve_left fun hsome => by simp [hatOnce] at hsome
            refine .inr ((h.entered a ha).allSettled (h.clean a ha) hcloses hatOnce ?_)
            intro child hid
            simpa using List.all_eq_true.mp hall child hid
          · exact .inl hatOnce
    | cut =>
      obtain rfl := Option.some.inj hstep
      exact h.gone
    | enter seq at_ p => cases hstep

end

/-! ## Runs -/

/-- A log that knows nothing of the group yet. -/
theorem Fresh.alive {run : RunState} (h : Fresh g run) : Alive g outcomes { run := run } := by
  have hopen : ∀ node, run.nodes.state node = none → ¬ run.Finished node ∧ ¬ run.Failed node := by
    intro node hnone
    exact ⟨fun hf => hf.alone.2.2 hnone, fun hf => hf.alone.2.2 hnone⟩
  refine ⟨⟨?_, ?_, ?_⟩, fun _ ha => absurd ha (by simp), fun _ ha => absurd ha (by simp), ?_⟩
  · intro child hid hf
    exact absurd hf (hopen child (h.2 child hid)).1
  · intro child hid hf
    exact absurd hf (hopen child (h.2 child hid)).2
  · intro child hid
    show (run.nodes.state child).any _ = false
    rw [h.2 child hid]
    rfl
  · intro hclosed
    rcases closedNode_iff.mp hclosed with hf | hf
    · exact absurd hf (hopen g.id h.1).1
    · exact absurd hf (hopen g.id h.1).2

end Yunta
