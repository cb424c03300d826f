/-
  `kind: parallel`: a group's children run together and joined under its `join:` policy.

  1. **The plan** — `planChildren` settles from the log which children run: an orphan its policy
     calls uncertain is failed where it is, a child with no state is fresh, one left Running is run
     again, and one with a terminal is never dispatched.

  2. **The join** — `joinAll` waits for every child and fails over any that failed; `joinAny` closes
     on the first to finish.  Each reads, besides what its children return, what the log already
     said when the group was entered.

  3. **A group run again** — the plan does not tell a terminal of this attempt of the group from one
     of an earlier attempt, so a group chosen to run again runs what made it fail exactly when no
     child of it had failed (`runsFailedAgain_iff`).
-/
import Yunta.Replay.Lifecycle
import Yunta.Schedule.Decide
import Mathlib.Data.List.Nodup

set_option linter.unusedVariables false

namespace Yunta

/-- `parallel.join`. -/
inductive JoinPolicy where
  | all | any
  deriving DecidableEq

/-- A `parallel` node: every id is declared once over the whole workflow. -/
structure Group where
  id : NodeId
  join : JoinPolicy
  children : List Node
  once : (id :: children.map (·.id)).Nodup

/-- How executing a node ended. -/
inductive NodeEnd where
  | finished | failed
  /-- The run is being cancelled: nothing was closed. -/
  | interrupted
  /-- A workflow node's child run paused. -/
  | paused (reason : PauseReason)
  | asked
  deriving DecidableEq

/-- How a group's attempt ended. -/
inductive GroupEnd where
  | childrenFinished (count : Nat)
  | succeededFirst (winner : NodeId)
  | childrenFailed (failed : List NodeId)
  | interrupted
  | paused (reason : PauseReason)
  /-- A child handed questions over, which `check` refuses of a group's child. -/
  | broken
  deriving DecidableEq

/-- Whether the group closes on success. -/
def GroupEnd.isFinished : GroupEnd → Bool
  | .childrenFinished _ | .succeededFirst _ => true
  | _ => false

@[simp] theorem GroupEnd.isFinished_childrenFailed (failed : List NodeId) :
    (GroupEnd.childrenFailed failed).isFinished = false := rfl

/-! ## The plan -/

/-- What a group's children are to do, as the log stood when the group was entered. -/
structure Plan where
  /-- The orphans failed here: their work is not safe to repeat. -/
  uncertain : List NodeId
  alreadyFailed : List NodeId
  /-- Each child to dispatch, with the attempt it is on. -/
  toRun : List (NodeId × Nat)
  deriving DecidableEq

section
variable (children : List Node) (state : RunState) (default_ : OnInterrupt)

def uncertainChildren : List NodeId :=
  ((resumePolicies children state default_).filter
    fun policy => policy.onInterrupt = .failIfUncertain).map (·.node)

def planChildren : Plan :=
  let uncertain := uncertainChildren children state default_
  { uncertain := uncertain
    alreadyFailed :=
      (children.map (·.id)).filter fun child =>
        uncertain.contains child || (state.nodes.state child).any NodeState.isFailed
    toRun :=
      ((children.map (·.id)).filter fun child => !uncertain.contains child).filterMap fun child =>
        match state.nodes.state child with
        | none => some (child, 1)
        | some (.running attempt) => some (child, attempt + 1)
        | _ => none }

/-- The child that won already, as a resumed `join: any` group finds it. -/
def alreadyWon : Option NodeId :=
  (children.map (·.id)).find? fun child => (state.nodes.state child).any NodeState.isFinished

end

/-! ## The join -/

/-- How the children of a `join: all` group ended. -/
structure ChildEnds where
  failed : List NodeId := []
  interrupted : Bool := false
  childPaused : Option PauseReason := none
  deriving DecidableEq

/-- Settles each child of a `join: all` group from its result; `none` when a child asked. -/
def settleAll (ends : ChildEnds) : List (NodeId × NodeEnd) → Option ChildEnds
  | [] => some ends
  | (child, .failed) :: rest => settleAll { ends with failed := ends.failed ++ [child] } rest
  | (_, .interrupted) :: rest => settleAll { ends with interrupted := true } rest
  | (_, .paused reason) :: rest =>
    settleAll { ends with childPaused := ends.childPaused <|> some reason } rest
  | (_, .finished) :: rest => settleAll ends rest
  | (_, .asked) :: _ => none

/-- `join: all`: the group closes when every child finishes, and fails naming those that did not. -/
def joinAll (count : Nat) (results : List (NodeId × NodeEnd)) : GroupEnd :=
  match settleAll {} results with
  | none => .broken
  | some ends =>
    if ends.interrupted then .interrupted
    else
      match ends.childPaused with
      | some reason => .paused reason
      | none => if ends.failed.isEmpty then .childrenFinished count else .childrenFailed ends.failed

/-- How a `join: any` race ended. -/
structure Race where
  winner : Option NodeId := none
  failures : List NodeId
  childPaused : Option PauseReason := none
  interrupted : Bool := false
  deriving DecidableEq

/-- Reads a race's results as they return, up to the one that decides it; the others are awaited and
    not read.  `none` when a child asked. -/
def raceChildren (race : Race) : List (NodeId × NodeEnd) → Option Race
  | [] => some race
  | (child, .finished) :: _ => some { race with winner := some child }
  | (child, .failed) :: rest => raceChildren { race with failures := race.failures ++ [child] } rest
  | (_, .interrupted) :: _ => some { race with interrupted := true }
  | (_, .paused reason) :: rest =>
    raceChildren { race with childPaused := race.childPaused <|> some reason } rest
  | (_, .asked) :: _ => none

/-- `join: any`: the first child to finish wins the group. -/
def joinAny (alreadyFailed : List NodeId) (returned : List (NodeId × NodeEnd)) : GroupEnd :=
  match raceChildren { failures := alreadyFailed } returned with
  | none => .broken
  | some race =>
    if race.interrupted then .interrupted
    else
      match race.winner with
      | some winner => .succeededFirst winner
      | none =>
        match race.childPaused with
        | some reason => .paused reason
        | none => .childrenFailed race.failures

/-! ## A group's attempt -/

/-- What a group closes on before it runs any child, if it does. -/
def closesAtOnce (join : JoinPolicy) (plan : Plan) (won : Option NodeId) : Option GroupEnd :=
  match join with
  | .all => if plan.alreadyFailed.isEmpty then none else some (.childrenFailed plan.alreadyFailed)
  | .any => won.map .succeededFirst

/-- What a group closes on once every child it ran returned. -/
def groupEnd (join : JoinPolicy) (children : List Node) (plan : Plan)
    (returned : List (NodeId × NodeEnd)) : GroupEnd :=
  match join with
  | .all =>
    -- each child's result, in declaration order
    joinAll children.length
      (plan.toRun.filterMap fun child => returned.find? fun result => result.1 = child.1)
  | .any => joinAny plan.alreadyFailed returned

/-- What one attempt of a group does: the children it executes, each on its attempt, and its end. -/
structure GroupRun where
  executed : List (NodeId × Nat)
  end_ : GroupEnd
  deriving DecidableEq

/-- Runs a group's children, from the state its log derives; `returned` is what those it executes
    return, in the order they do. -/
def executeParallel (join : JoinPolicy) (children : List Node) (state : RunState)
    (default_ : OnInterrupt) (returned : List (NodeId × NodeEnd)) : GroupRun :=
  let plan := planChildren children state default_
  match closesAtOnce join plan (alreadyWon children state) with
  | some end_ => ⟨[], end_⟩
  | none => ⟨plan.toRun, groupEnd join children plan returned⟩

/-! ## What a plan holds -/

section
variable {children : List Node} {state : RunState} {default_ : OnInterrupt}

theorem mem_uncertain {id : NodeId} (h : id ∈ uncertainChildren children state default_) :
    id ∈ children.map (·.id) ∧ state.isRunning id = true := by
  obtain ⟨policy, hpolicy, rfl⟩ := List.mem_map.mp h
  obtain ⟨node, hnode, rfl⟩ := List.mem_map.mp (List.mem_filter.mp hpolicy).1
  obtain ⟨hchild, hrunning⟩ := List.mem_filter.mp hnode
  exact ⟨List.mem_map_of_mem hchild, (Bool.and_eq_true_iff.mp hrunning).2⟩

/-- A child to run has no state yet, or was left Running. -/
theorem mem_toRun {id : NodeId} {attempt : Nat}
    (h : (id, attempt) ∈ (planChildren children state default_).toRun) :
    id ∈ children.map (·.id) ∧ id ∉ uncertainChildren children state default_ ∧
      (state.nodes.state id = none ∨ state.isRunning id = true) := by
  obtain ⟨child, hchild, hplanned⟩ := List.mem_filterMap.mp h
  obtain ⟨hmem, hcertain⟩ := List.mem_filter.mp hchild
  have hshape : child = id ∧
      (state.nodes.state child = none ∨ state.isRunning child = true) := by
    cases hstate : state.nodes.state child with
    | none => simp_all
    | some st =>
      cases st with
      | running a => simp_all [RunState.isRunning, NodeState.isRunning]
      | _ => simp_all
  obtain ⟨rfl, hstate⟩ := hshape
  exact ⟨hmem, by simpa using hcertain, hstate⟩

/-- Every child with no state, or left Running with certain work, is to run. -/
theorem toRun_of_open {id : NodeId} (hid : id ∈ children.map (·.id))
    (hcertain : id ∉ uncertainChildren children state default_)
    (hopen : state.nodes.state id = none ∨ state.isRunning id = true) :
    ∃ attempt, (id, attempt) ∈ (planChildren children state default_).toRun := by
  have hmem : id ∈ (children.map (·.id)).filter fun child =>
      !(uncertainChildren children state default_).contains child :=
    List.mem_filter.mpr ⟨hid, by simpa using hcertain⟩
  rcases hopen with hnone | hrunning
  · exact ⟨1, List.mem_filterMap.mpr ⟨id, hmem, by rw [hnone]⟩⟩
  · rw [RunState.isRunning] at hrunning
    cases hstate : state.nodes.state id with
    | none => simp [hstate] at hrunning
    | some st =>
      cases st with
      | running attempt =>
        exact ⟨attempt + 1, List.mem_filterMap.mpr ⟨id, hmem, by rw [hstate]⟩⟩
      | _ => simp [hstate, NodeState.isRunning] at hrunning

theorem mem_alreadyFailed {id : NodeId} :
    id ∈ (planChildren children state default_).alreadyFailed ↔
      id ∈ children.map (·.id) ∧ (id ∈ uncertainChildren children state default_ ∨
        (state.nodes.state id).any NodeState.isFailed = true) := by
  simp [planChildren]

/-- A child to run never finished, and never failed. -/
theorem toRun_open {id : NodeId} {attempt : Nat}
    (h : (id, attempt) ∈ (planChildren children state default_).toRun) :
    (state.nodes.state id).any NodeState.isFinished = false ∧
      (state.nodes.state id).any NodeState.isFailed = false := by
  obtain ⟨-, -, hnone | hrunning⟩ := mem_toRun h
  · simp [hnone]
  · rw [RunState.isRunning] at hrunning
    cases hstate : state.nodes.state id with
    | none => simp [hstate] at hrunning
    | some st => cases st <;> simp_all [NodeState.isRunning, NodeState.isFinished, NodeState.isFailed]

theorem toRun_nodup (h : (children.map (·.id)).Nodup) :
    ((planChildren children state default_).toRun.map (·.1)).Nodup := by
  have hsub : ((planChildren children state default_).toRun.map (·.1)).Sublist
      (children.map (·.id)) := by
    have hplanned : ∀ ids : List NodeId, ((ids.filterMap fun child =>
        match state.nodes.state child with
        | none => some (child, 1)
        | some (.running attempt) => some (child, attempt + 1)
        | _ => none).map (·.1)).Sublist ids := by
      intro ids
      induction ids with
      | nil => simp
      | cons id rest ih =>
        rw [List.filterMap_cons]
        split
        · exact ih.cons id
        · next found hfound =>
          have hid : found.1 = id := by
            split at hfound <;> simp_all <;> simp [← hfound]
          rw [List.map_cons, hid]
          exact ih.cons_cons id
    exact (hplanned _).trans List.filter_sublist
  exact hsub.nodup h

end

/-! ## What the joins answer -/

theorem settleAll_finished {results : List (NodeId × NodeEnd)} (ends : ChildEnds)
    (h : ∀ result ∈ results, result.2 = .finished) : settleAll ends results = some ends := by
  induction results with
  | nil => rfl
  | cons result rest ih =>
    obtain ⟨child, end_⟩ := result
    obtain rfl : end_ = .finished := h _ (List.mem_cons_self ..)
    exact ih fun r hr => h r (List.mem_cons_of_mem _ hr)

theorem settleAll_failed {results : List (NodeId × NodeEnd)} {ends settled : ChildEnds}
    (h : settleAll ends results = some settled) {id : NodeId} (hid : id ∈ settled.failed) :
    id ∈ ends.failed ∨ (id, NodeEnd.failed) ∈ results := by
  induction results generalizing ends with
  | nil =>
    obtain rfl := Option.some.inj h
    exact .inl hid
  | cons result rest ih =>
    obtain ⟨child, end_⟩ := result
    cases end_ with
    | failed =>
      rcases ih h with hmem | hmem
      · rcases List.mem_append.mp hmem with hmem | hmem
        · exact .inl hmem
        · rw [List.mem_singleton.mp hmem]
          exact .inr (List.mem_cons_self ..)
      · exact .inr (List.mem_cons_of_mem _ hmem)
    | asked => cases h
    | finished => exact (ih h).imp_right fun hmem => List.mem_cons_of_mem _ hmem
    | interrupted => exact (ih h).imp_right fun hmem => List.mem_cons_of_mem _ hmem
    | paused reason => exact (ih h).imp_right fun hmem => List.mem_cons_of_mem _ hmem

theorem raceChildren_failures {returned : List (NodeId × NodeEnd)} {race ended : Race}
    (h : raceChildren race returned = some ended) {id : NodeId} (hid : id ∈ ended.failures) :
    id ∈ race.failures ∨ (id, NodeEnd.failed) ∈ returned := by
  induction returned generalizing race with
  | nil =>
    obtain rfl := Option.some.inj h
    exact .inl hid
  | cons result rest ih =>
    obtain ⟨child, end_⟩ := result
    cases end_ with
    | failed =>
      rcases ih h with hmem | hmem
      · rcases List.mem_append.mp hmem with hmem | hmem
        · exact .inl hmem
        · rw [List.mem_singleton.mp hmem]
          exact .inr (List.mem_cons_self ..)
      · exact .inr (List.mem_cons_of_mem _ hmem)
    | asked => cases h
    | finished =>
      obtain rfl := Option.some.inj h
      exact .inl hid
    | interrupted =>
      obtain rfl := Option.some.inj h
      exact .inl hid
    | paused reason => exact (ih h).imp_right fun hmem => List.mem_cons_of_mem _ hmem

theorem joinAll_failed {count : Nat} {results : List (NodeId × NodeEnd)} {failed : List NodeId}
    (h : joinAll count results = .childrenFailed failed) {id : NodeId} (hid : id ∈ failed) :
    (id, NodeEnd.failed) ∈ results := by
  unfold joinAll at h
  split at h
  · cases h
  · next ends hends =>
    split at h
    · cases h
    · split at h
      · cases h
      · split at h
        · cases h
        · cases h
          rcases settleAll_failed hends hid with hmem | hmem
          · cases hmem
          · exact hmem

theorem joinAny_failed {alreadyFailed : List NodeId} {returned : List (NodeId × NodeEnd)}
    {failed : List NodeId} (h : joinAny alreadyFailed returned = .childrenFailed failed)
    {id : NodeId} (hid : id ∈ failed) :
    id ∈ alreadyFailed ∨ (id, NodeEnd.failed) ∈ returned := by
  unfold joinAny at h
  split at h
  · cases h
  · next race hrace =>
    split at h
    · cases h
    · split at h
      · cases h
      · split at h
        · cases h
        · cases h
          exact raceChildren_failures hrace hid

theorem joinAny_finished {alreadyFailed : List NodeId} {returned : List (NodeId × NodeEnd)}
    (hsome : returned ≠ []) (h : ∀ result ∈ returned, result.2 = .finished) :
    (joinAny alreadyFailed returned).isFinished = true := by
  cases returned with
  | nil => exact absurd rfl hsome
  | cons result rest =>
    obtain ⟨child, end_⟩ := result
    obtain rfl : end_ = .finished := h _ (List.mem_cons_self ..)
    rfl

/-! ## A group run again -/

/-- Each child the group executes returns, once. -/
def Returns (plan : Plan) (returned : List (NodeId × NodeEnd)) : Prop :=
  (returned.map (·.1)).Perm (plan.toRun.map (·.1))

/-- A group entered again runs what made it fail: each child that failed runs on its next attempt,
    the group finishes when every child now succeeds, and it never fails over terminals the log held
    already. -/
structure RunsFailedAgain (g : Group) (state : RunState) (default_ : OnInterrupt) : Prop where
  again : ∀ returned, Returns (planChildren g.children state default_) returned →
    ∀ child ∈ g.children.map (·.id), (state.nodes.state child).any NodeState.isFailed = true →
      (child, ((state.nodes.get child).map (·.attempts)).getD 0 + 1) ∈
        (executeParallel g.join g.children state default_ returned).executed
  finishes : ∀ returned, Returns (planChildren g.children state default_) returned →
    g.children ≠ [] →
    (∀ child ∈ g.children.map (·.id), (state.nodes.state child).any NodeState.isFinished = true ∨
      (child, .finished) ∈ returned) →
    (executeParallel g.join g.children state default_ returned).end_.isFinished = true
  fails : ∀ returned, Returns (planChildren g.children state default_) returned →
    ∀ failed, (executeParallel g.join g.children state default_ returned).end_ =
      .childrenFailed failed →
      failed = [] ∨ ∃ child ∈ failed, (state.nodes.state child).any NodeState.isFailed = false

section
variable {g : Group} {state : RunState} {default_ : OnInterrupt}
  {returned : List (NodeId × NodeEnd)}

theorem Group.children_once (g : Group) : (g.children.map (·.id)).Nodup :=
  (List.nodup_cons.mp g.once).2

theorem executed_subset {child : NodeId × Nat}
    (h : child ∈ (executeParallel g.join g.children state default_ returned).executed) :
    child ∈ (planChildren g.children state default_).toRun := by
  unfold executeParallel at h
  dsimp only at h
  split at h
  · cases h
  · exact h

/-- What a child returned is the one thing it returned. -/
theorem Returns.unique (h : Returns (planChildren g.children state default_) returned)
    {a b : NodeId × NodeEnd} (ha : a ∈ returned) (hb : b ∈ returned) (hid : a.1 = b.1) : a = b := by
  have hnodup : (returned.map (·.1)).Nodup :=
    (List.Perm.nodup_iff h).mpr (toRun_nodup g.children_once)
  exact List.inj_on_of_nodup_map hnodup ha hb hid

theorem Returns.ran (h : Returns (planChildren g.children state default_) returned)
    {result : NodeId × NodeEnd} (hmem : result ∈ returned) :
    ∃ attempt, (result.1, attempt) ∈ (planChildren g.children state default_).toRun := by
  have hid := (List.Perm.mem_iff h).mp (List.mem_map_of_mem hmem)
  obtain ⟨⟨id, attempt⟩, hrun, heq⟩ := List.mem_map.mp hid
  exact ⟨attempt, by rw [← heq]; exact hrun⟩

/-- When every child succeeds, everything returned is a finish. -/
theorem Returns.all_finished (h : Returns (planChildren g.children state default_) returned)
    (hall : ∀ child ∈ g.children.map (·.id),
      (state.nodes.state child).any NodeState.isFinished = true ∨ (child, .finished) ∈ returned)
    {result : NodeId × NodeEnd} (hmem : result ∈ returned) : result.2 = .finished := by
  obtain ⟨attempt, hrun⟩ := h.ran hmem
  rcases hall result.1 (mem_toRun hrun).1 with hdone | hfinished
  · rw [(toRun_open hrun).1] at hdone
    cases hdone
  · rw [h.unique hmem hfinished rfl]

theorem alreadyFailed_nil_iff :
    (planChildren g.children state default_).alreadyFailed = [] ↔
      uncertainChildren g.children state default_ = [] ∧
        ∀ child ∈ g.children.map (·.id),
          (state.nodes.state child).any NodeState.isFailed = false := by
  rw [List.eq_nil_iff_forall_not_mem]
  constructor
  · intro h
    constructor
    · rw [List.eq_nil_iff_forall_not_mem]
      intro id hid
      exact h id (mem_alreadyFailed.mpr ⟨(mem_uncertain hid).1, .inl hid⟩)
    · intro id hid
      by_contra hfailed
      exact h id (mem_alreadyFailed.mpr ⟨hid, .inr (by simpa using hfailed)⟩)
  · rintro ⟨hnil, hnone⟩ id hid
    obtain ⟨hchild, huncertain | hfailed⟩ := mem_alreadyFailed.mp hid
    · rw [hnil] at huncertain
      cases huncertain
    · rw [hnone id hchild] at hfailed
      cases hfailed

/-- A group none of whose children failed finishes when all of them succeed. -/
theorem finishes_of_none_failed
    (hnone : ∀ child ∈ g.children.map (·.id),
      (state.nodes.state child).any NodeState.isFailed = false)
    (h : Returns (planChildren g.children state default_) returned) (hsome : g.children ≠ [])
    (hall : ∀ child ∈ g.children.map (·.id),
      (state.nodes.state child).any NodeState.isFinished = true ∨ (child, .finished) ∈ returned) :
    (executeParallel g.join g.children state default_ returned).end_.isFinished = true := by
  have hfinished : ∀ result ∈ returned, result.2 = .finished := fun r hr => h.all_finished hall hr
  -- an uncertain orphan is not executed, so it could not have succeeded
  have hcertain : uncertainChildren g.children state default_ = [] := by
    rw [List.eq_nil_iff_forall_not_mem]
    intro id hid
    rcases hall id (mem_uncertain hid).1 with hdone | hret
    · have hrunning := (mem_uncertain hid).2
      rw [RunState.isRunning] at hrunning
      cases hstate : state.nodes.state id with
      | none => simp [hstate] at hrunning
      | some st => cases st <;> simp_all [NodeState.isRunning, NodeState.isFinished]
    · obtain ⟨attempt, hrun⟩ := h.ran hret
      exact (mem_toRun hrun).2.1 hid
  have hfailed := alreadyFailed_nil_iff.mpr ⟨hcertain, hnone⟩
  unfold executeParallel closesAtOnce groupEnd
  cases hjoin : g.join with
  | all =>
    simp only [hfailed, List.isEmpty_nil, if_true]
    have hresults : ∀ result ∈ (planChildren g.children state default_).toRun.filterMap
        (fun child => returned.find? fun result => result.1 = child.1),
        result.2 = .finished := by
      intro result hresult
      obtain ⟨child, -, hfind⟩ := List.mem_filterMap.mp hresult
      exact hfinished result (List.mem_of_find?_eq_some hfind)
    rw [joinAll, settleAll_finished {} hresults]
    rfl
  | any =>
    cases hwon : alreadyWon g.children state with
    | some winner => rfl
    | none =>
      simp only [Option.map_none, hfailed]
      refine joinAny_finished ?_ hfinished
      -- with no winner in the log, some child returned
      rintro rfl
      obtain ⟨child, hchild⟩ := List.exists_mem_of_ne_nil _ hsome
      rcases hall child.id (List.mem_map_of_mem hchild) with hdone | hret
      · have hnot := List.find?_eq_none.mp hwon child.id (List.mem_map_of_mem hchild)
        exact hnot hdone
      · cases hret

/-- A group none of whose children failed names one that failed in this attempt. -/
theorem fails_of_none_failed
    (hnone : ∀ child ∈ g.children.map (·.id),
      (state.nodes.state child).any NodeState.isFailed = false)
    (h : Returns (planChildren g.children state default_) returned) {failed : List NodeId}
    (hend : (executeParallel g.join g.children state default_ returned).end_ =
      .childrenFailed failed) {child : NodeId} (hchild : child ∈ failed) :
    (state.nodes.state child).any NodeState.isFailed = false := by
  have hplanned : ∀ id ∈ (planChildren g.children state default_).alreadyFailed,
      (state.nodes.state id).any NodeState.isFailed = false := by
    intro id hid
    exact hnone id (mem_alreadyFailed.mp hid).1
  have hreturned : (child, NodeEnd.failed) ∈ returned →
      (state.nodes.state child).any NodeState.isFailed = false := by
    intro hret
    obtain ⟨attempt, hrun⟩ := h.ran hret
    exact (toRun_open hrun).2
  unfold executeParallel closesAtOnce groupEnd at hend
  cases hjoin : g.join with
  | all =>
    simp only [hjoin] at hend
    split at hend
    · next end_ hclosed =>
      split at hclosed
      · cases hclosed
      · cases hclosed
        cases hend
        exact hplanned child hchild
    · have hresult := joinAll_failed hend hchild
      obtain ⟨run, -, hfind⟩ := List.mem_filterMap.mp hresult
      exact hreturned (List.mem_of_find?_eq_some hfind)
  | any =>
    simp only [hjoin] at hend
    cases hwon : alreadyWon g.children state with
    | some winner =>
      simp only [hwon, Option.map_some] at hend
      cases hend
    | none =>
      simp only [hwon, Option.map_none] at hend
      rcases joinAny_failed hend hchild with hmem | hret
      · exact hplanned child hmem
      · exact hreturned hret

end

/-- **A group entered again runs what made it fail exactly when none of its children had failed**:
    over every group, every join and every state of the log. -/
theorem runsFailedAgain_iff (g : Group) (state : RunState) (default_ : OnInterrupt) :
    RunsFailedAgain g state default_ ↔
      ∀ child ∈ g.children.map (·.id),
        (state.nodes.state child).any NodeState.isFailed = false := by
  constructor
  · intro h child hchild
    by_contra hfailed
    -- whatever the others return, a child with a terminal is not among those executed
    have hret : Returns (planChildren g.children state default_)
        ((planChildren g.children state default_).toRun.map fun run => (run.1, .finished)) := by
      rw [Returns, List.map_map]
      exact List.Perm.refl _
    have hexecuted := h.again _ hret child hchild (by simpa using hfailed)
    have hopen := (toRun_open (executed_subset hexecuted)).2
    exact hfailed (by simpa using hopen)
  · intro hnone
    refine ⟨?_, ?_, ?_⟩
    · intro returned _ child hchild hfailed
      rw [hnone child hchild] at hfailed
      cases hfailed
    · intro returned hret hsome hall
      exact finishes_of_none_failed hnone hret hsome hall
    · intro returned hret failed hend
      rcases List.eq_nil_or_concat failed with rfl | ⟨init, child, rfl⟩
      · exact .inl rfl
      · exact .inr ⟨child, by simp, fails_of_none_failed hnone hret hend (by simp)⟩

/-- Two checks that must both pass. -/
def checks : Group where
  id := "checks"
  join := .all
  children := [{ id := "lint", kind := .bash }, { id := "test", kind := .bash }]
  once := by decide

def checksWorkflow : Workflow := ⟨[{ id := "checks", kind := .parallel checks.children }]⟩

/-- `lint` failed and failed the group, and a person chose to run the group again. -/
def retriedLog : List StoredEvent :=
  [nodeEvent 1 0 "checks" (.started ⟨1, none, none⟩),
    nodeEvent 2 0 "lint" (.started ⟨1, none, none⟩),
    nodeEvent 3 0 "test" (.started ⟨1, none, none⟩),
    nodeEvent 4 0 "test" (.finished {}),
    nodeEvent 5 0 "lint" (.failed ⟨.red, {}, none⟩),
    nodeEvent 6 0 "checks" (.failed ⟨.childrenFailed ["lint"], {}, none⟩),
    ⟨"", 7, 0, some "checks", .known (.gates (.waiting {}))⟩,
    ⟨"", 8, 0, some "checks", .known (.gates (.resolved (.chosen ⟨"retry", "someone", none⟩)))⟩]

/-- **A person's retry of a group runs nothing**: the scheduler executes the group, and the group
    closes on the failure its child recorded before. -/
theorem not_runsFailedAgain :
    ¬ ∀ (workflow : Workflow) (policy : Policy) (log : List StoredEvent) (g : Group)
        (attempt : Nat),
      Accepted log → ((derive log).nodes.state g.id).any NodeState.isFailed = true →
      decide workflow (derive log) policy = .execute [(g.id, attempt)] →
      RunsFailedAgain g (derive log) policy.onInterrupt := by
  intro h
  have hgroup := h checksWorkflow { maxParallelNodes := 1 } retriedLog checks 2 (by decide +kernel)
    (by decide +kernel) (by decide +kernel)
  have hret : Returns (planChildren checks.children (derive retriedLog) .restartNode) [] := by
    have hnone : (planChildren checks.children (derive retriedLog) .restartNode).toRun =
        [] := by
      decide +kernel
    rw [Returns, hnone]
    exact List.Perm.refl _
  have hlint := hgroup.again [] hret "lint" (by decide) (by decide +kernel)
  revert hlint
  decide +kernel

end Yunta
