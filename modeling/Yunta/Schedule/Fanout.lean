/-
  Nodes that run side by side, and the files they may write.

  1. **Runs** — the machine decides, and appends the events of what it drives: a node starts, or is
     parked on a wait, where the last decision drove it, where it runs or waits already, or inside a
     group that has started.  A log of these is any run, stopped and resumed at any point.

  2. **Invariant** — `Sound`: whatever has a state, every node it waits on had one before it (`due`);
     a node keeps the state its waits interrupt (`kept`); and no two nodes that run, wait or are
     driven wait on one another (`apart`).

  3. **The narrowed graph** — a fresh node whose dependencies under the mode are finished has every
     node it waits on in the file behind it (`due_of_fresh`): each edge of the file is one the mode
     keeps, or one inherited through a node it leaves out.

  4. **Main result** — `side_by_side`: in every run in which no correction runs ahead of what its
     node waits on, two nodes of one batch that may write select no common path.  The condition on
     the file is that the mode keeps each dependency on a group's child, and that overlap misses no
     pair of the globs (`not_side_by_side`).
-/
import Yunta.Check.Scopes
import Yunta.Lib.Machine
import Yunta.Replay.Lifecycle
import Yunta.Replay.Waits
import Yunta.Schedule.Drives
import Yunta.Workflow.Inherited

set_option linter.unusedVariables false

namespace Yunta.Fanout

open Relation (TransGen)
open Machine

/-! ## The file -/

/-- Each dependency the mode leaves out is a top-level node, and no group's child. -/
def KeepsChildren (workflow : Workflow) (included : Option (List NodeId)) : Prop :=
  ∀ node ∈ workflow.nodes, ∀ dep ∈ node.dependsOn, isIncluded included dep = true ∨
    ∀ top ∈ workflow.nodes, (∃ nested ∈ nodeAndNested top, nested.id = dep) → top.id = dep

instance (workflow : Workflow) (included : Option (List NodeId)) :
    Decidable (KeepsChildren workflow included) :=
  inferInstanceAs (Decidable (∀ node ∈ workflow.nodes, ∀ dep ∈ node.dependsOn, _ ∨ _))

/-! ## Runs -/

/-- The log, and the nodes the last decision drove. -/
structure Live where
  log : List StoredEvent
  driven : List NodeId

inductive Act where
  | decide
  | event (event : StoredEvent)

/-- The node an event starts, or parks on a wait. -/
def begins (event : StoredEvent) : Option NodeId :=
  match event.payload with
  | some (.node (.started _)) | some (.gates (.waiting _)) => event.nodeId
  | _ => none

/-- Whether an event parks a node on a wait. -/
def parks (event : StoredEvent) : Bool :=
  match event.payload with
  | some (.gates (.waiting _)) => true
  | _ => false

section
variable (workflow : Workflow) (policy : Policy)

/-- Whether the run may start a node, or park it: the last decision drove it, it runs or waits
    already, a group it is nested in has started, or it is a gate opened again. -/
def mayBegin (live : Live) (id : NodeId) : Bool :=
  live.driven.contains id || (derive live.log).isActive id ||
    workflow.nodes.any fun top =>
      (derive live.log).nodes.hasState top.id &&
        (nodeAndNested top).any (fun nested => nested.id = id) && (top.id != id || isGate top)

/-- A wait opens on a gate, or on a node that has a state. -/
def mayPark (s : RunState) (id : NodeId) : Bool :=
  s.nodes.hasState id || !workflow.nodes.any fun node => node.id = id && !isGate node

/-- One step: the scheduler answers, or an event the log can take is appended. -/
def step (live : Live) : Act → Option Live
  | .decide => some ⟨live.log, (Yunta.decide workflow (derive live.log) policy).drives⟩
  | .event event =>
    if Accepted (live.log ++ [event]) ∧
        (begins event).all (mayBegin workflow live) = true ∧
        (parks event → (begins event).all (mayPark workflow (derive live.log)) = true) then
      some ⟨live.log ++ [event], live.driven⟩
    else none

/-- Everything `id` waits on has a state: the group it is nested in, and every included node the
    file orders before it, gates apart. -/
def Due (s : RunState) (id : NodeId) : Prop :=
  ∀ top, workflow.Nests top id → (top ≠ id → s.nodes.hasState top = true) ∧
    ∀ node ∈ workflow.nodes, isGate node = false → isIncluded policy.modeNodes node.id = true →
      TransGen workflow.Waits top node.id → s.nodes.hasState node.id = true

/-- **What every step of the run keeps to**: a failure's own decision runs no node for the first
    time ahead of what it waits on, and no wait opens on a node that waits. -/
def InOrder (live : Live) : Act → Prop
  | .decide => ∀ d, failureStep (Board.of workflow (derive live.log) policy) = some d →
      Yunta.decide workflow (derive live.log) policy = d → ∀ id ∈ d.drives,
        (derive live.log).nodes.hasState id = true ∨ Due workflow policy (derive live.log) id
  | .event event => ∀ node ∈ workflow.nodes, isGate node = false →
      waitMove node.id event = .opens → (derive live.log).isWaiting node.id = false

/-- Before anything ran. -/
def born : Live := ⟨[], []⟩

end

/-! ## What an event does to a node's state -/

section
variable {s : RunState} {event : StoredEvent} {id : NodeId}

/-- A node keeps the state its waits interrupt, and once it has one, a wait holds one. -/
def Kept (s : RunState) (id : NodeId) : Prop :=
  ∃ w, s.Holds id w ∧ (s.nodes.hasState id = true → w.kept.isSome = true)

/-- A node has a state where a wait holds it, or what it rests in is one. -/
theorem hasState_iff {w : Interrupt (Option NodeState)} (h : s.Holds id w) :
    s.nodes.hasState id = true ↔ w.isHeld = true ∨ w.kept.isSome = true := by
  cases w with
  | atRest state =>
    rw [NodeLedger.hasState, h.1]
    simp [Interrupt.isHeld, Interrupt.kept]
  | held state =>
    have hwaits := h.1
    rw [RunState.isWaiting] at hwaits
    refine iff_of_true ?_ (.inl rfl)
    rw [NodeLedger.hasState]
    cases hstate : s.nodes.state id with
    | none => simp [hstate] at hwaits
    | some st => rfl

/-- **A state is never lost**, where a wait opens on a node that has one and waits on nothing. -/
theorem Kept.taken (h : Kept s id) (hr : s.refuse event = .ok ())
    (hopen : waitMove id event = .opens →
      s.isWaiting id = false ∧ s.nodes.hasState id = true) :
    Kept (s.taken event) id ∧
      (s.nodes.hasState id = true → (s.taken event).nodes.hasState id = true) := by
  obtain ⟨w, hw, hkept⟩ := h
  obtain ⟨w', hstep, hw'⟩ := RunState.taken_holds hr hw fun ho => (hopen ho).1
  have hstays : s.nodes.hasState id = true → w'.kept.isSome = true := by
    intro hstate
    by_cases hmove : waitMove id event = .replaces
    · have hsome := RunState.replaced_some (s := s) hmove
      rw [hmove] at hstep
      cases hstep with
      | replaces w value =>
        have hvalue : (s.taken event).nodes.state id = value := hw'.1
        rw [Interrupt.kept, ← hvalue]
        exact hsome
    · have hbefore := hkept hstate
      generalize waitMove id event = m at hstep hmove
      cases hstep with
      | replaces w value => exact absurd rfl hmove
      | _ => exact hbefore
  have hheld : w'.isHeld = true → s.nodes.hasState id = true := by
    intro hheld
    have hlast := hopen
    generalize waitMove id event = m at hstep hlast
    cases hstep with
    | opens value => exact (hlast rfl).2
    | reopens value => exact (hasState_iff hw).mpr (.inl rfl)
    | quiet w => exact (hasState_iff hw).mpr (.inl hheld)
    | _ => cases hheld
  refine ⟨⟨w', hw', fun hstate => ?_⟩, fun hstate => (hasState_iff hw').mpr (.inr (hstays hstate))⟩
  rcases (hasState_iff hw').mp hstate with h | h
  · exact hstays (hheld h)
  · exact h

/-- A node's state moves only where the event begins it, or the node runs or waits. -/
theorem taken_state_cases (hr : s.refuse event = .ok ()) (id : NodeId) :
    (s.taken event).nodes.state id = s.nodes.state id ∨ begins event = some id ∨
      s.isActive id = true := by
  have hrunning : s.isRunning id = true → s.isActive id = true := by
    intro h
    rw [RunState.isActive, h]
    rfl
  have hwaiting : s.isWaiting id = true → s.isActive id = true := by
    intro h
    rw [RunState.isActive, h, Bool.or_true]
  have hcheck := hr
  unfold RunState.refuse at hcheck
  cases hp : event.payload with
  | none => exact .inl (RunState.taken_still hr (by simp [hp]) (by simp [hp]) id).1
  | some payload =>
    rw [hp] at hcheck
    cases payload with
    | node e =>
      rw [RunState.taken_node hp]
      have hstate := s.nodes.state_apply id e event.meta_ s.run.suspensions
      by_cases hnode : event.nodeId = some id
      · rw [if_pos (show event.meta_.node = some id from hnode), NodeRecord.onEvent_state] at hstate
        have hsame : ((s.nodes.get id).getD {}).state = s.nodes.state id := by
          rw [NodeLedger.state]
          cases s.nodes.get id <;> rfl
        have hterminal : ∀ err : ReplayError, (if s.isRunning id then Except.ok () else
            Except.error err : Except ReplayError Unit) = .ok () → s.isRunning id = true := by
          intro err h
          by_contra hne
          rw [if_neg hne] at h
          cases h
        simp only [RunState.refuseNode, RunState.requireNodeId, hnode] at hcheck
        cases e with
        | started p => exact .inr (.inl (by simp [begins, hp, hnode]))
        | finished p => exact .inr (.inr (hrunning (hterminal _ hcheck)))
        | failed p => exact .inr (.inr (hrunning (hterminal _ hcheck)))
        | _ => exact .inl (hstate.trans hsame)
      · rw [if_neg (show event.meta_.node ≠ some id from hnode)] at hstate
        exact .inl hstate
    | gates e =>
      rw [RunState.taken_gate hr hp]
      by_cases hnode : event.nodeId = some id
      · simp only [RunState.refuseGate, hnode] at hcheck
        cases e with
        | waiting p => exact .inr (.inl (by simp [begins, hp, hnode]))
        | resolved p =>
          by_cases hw : s.isWaiting id = true
          · exact .inr (.inr (hwaiting hw))
          · refine .inl ?_
            show (s.gateTransition (.resolved p) event).1.nodes.state id = _
            simp [RunState.gateTransition, hnode, hw]
        | questionsAsked round =>
          refine .inr (.inr (hrunning ?_))
          by_contra hne
          rw [Bool.not_eq_true] at hne
          simp [hne] at hcheck
        | questionsAnswered p =>
          refine .inr (.inr (hwaiting ?_))
          by_contra hne
          rw [Bool.not_eq_true] at hne
          simp [hne] at hcheck
        | askingOpened =>
          refine .inl ?_
          show (s.gateTransition .askingOpened event).1.nodes.state id = _
          simp only [RunState.gateTransition, hnode]
          exact s.nodes.state_stopWorking id id _ _
      · exact .inl (s.gateTransition_other e hnode).1
    | _ => exact .inl (RunState.taken_still hr (by simp [hp]) (by simp [hp]) id).1

/-- A wait is one of those the machine guards, or a round of questions of a node that runs. -/
theorem opens_cases (hr : s.refuse event = .ok ()) (h : waitMove id event = .opens) :
    begins event = some id ∧ parks event = true ∨ s.isRunning id = true := by
  unfold waitMove at h
  split at h
  · next hnode =>
    unfold RunState.refuse at hr
    cases hp : event.payload with
    | none => simp [hp] at h
    | some payload =>
      rw [hp] at h hr
      cases payload with
      | node e => cases e <;> cases h
      | gates e =>
        simp only [RunState.refuseGate, hnode] at hr
        cases e with
        | waiting p => exact .inl ⟨by simp [begins, hp, hnode], by simp [parks, hp]⟩
        | questionsAsked round =>
          refine .inr ?_
          by_contra hne
          rw [Bool.not_eq_true] at hne
          simp [hne] at hr
        | _ => cases h
      | _ => cases h
  · cases h

end

/-! ## The invariant -/

/-- A top-level node the mode schedules, and no gate. -/
def Work (workflow : Workflow) (policy : Policy) (id : NodeId) : Prop :=
  ∃ node ∈ workflow.nodes, node.id = id ∧ isGate node = false ∧
    isIncluded policy.modeNodes id = true

/-- What holds of every state the run reaches. -/
structure Sound (workflow : Workflow) (policy : Policy) (live : Live) : Prop where
  accepted : Accepted live.log
  due : ∀ id, (derive live.log).nodes.hasState id = true ∨ id ∈ live.driven →
    Due workflow policy (derive live.log) id
  kept : ∀ node ∈ workflow.nodes, isGate node = false → Kept (derive live.log) node.id
  apart : ∀ a b, Work workflow policy a → Work workflow policy b → a ≠ b →
    ((derive live.log).isActive a = true ∨ a ∈ live.driven) →
    ((derive live.log).isActive b = true ∨ b ∈ live.driven) → ¬ TransGen workflow.Waits a b

section
variable {workflow : Workflow} {policy : Policy} {live next : Live}

theorem sound_born : Sound workflow policy born where
  accepted := rfl
  due id h := by
    rcases h with h | h
    · cases h
    · cases h
  kept node _ _ := ⟨.atRest none, ⟨rfl, rfl⟩, fun h => nomatch h⟩
  apart a b _ _ _ ha _ := by
    rcases ha with h | h
    · cases h
    · cases h

theorem hasState_of_active {s : RunState} {id : NodeId} (h : s.isActive id = true) :
    s.nodes.hasState id = true := by
  rw [RunState.isActive, RunState.isRunning, RunState.isWaiting] at h
  rw [NodeLedger.hasState]
  cases hstate : s.nodes.state id with
  | none => simp [hstate] at h
  | some st => rfl

/-- **What is due stays due**: no node but a gate loses its state. -/
theorem Due.mono {s t : RunState} {id : NodeId} (h : Due workflow policy s id)
    (hgrows : ∀ node ∈ workflow.nodes, isGate node = false → s.nodes.hasState node.id = true →
      t.nodes.hasState node.id = true) : Due workflow policy t id := by
  intro top htop
  obtain ⟨hgroup, hbefore⟩ := h top htop
  refine ⟨fun hne => ?_, fun node hnode hgate hinc hwaits =>
    hgrows node hnode hgate (hbefore node hnode hgate hinc hwaits)⟩
  obtain ⟨node, hnode, rfl, nested, hnested, rfl⟩ := htop
  refine hgrows node hnode ?_ (hgroup hne)
  -- a gate nests nothing but itself
  by_contra hgate
  rw [Bool.not_eq_false] at hgate
  exact hne (congrArg (·.id) (eq_of_nested_gate hgate hnested)).symm

/-- A node inside what is due is due itself, once the group has a state. -/
theorem Due.nested (hdistinct : workflow.Distinct) {s : RunState} {top id : NodeId}
    (h : Due workflow policy s top) (htop : workflow.Nests top id) (hself : workflow.Nests top top)
    (hstate : s.nodes.hasState top = true) : Due workflow policy s id := by
  intro other hother
  obtain rfl := nests_unique hdistinct htop hother
  exact ⟨fun _ => hstate, (h top hself).2⟩

/-- **What an event may begin is due**, and was active or driven where it is a node of its own. -/
theorem due_of_mayBegin (hdistinct : workflow.Distinct) (h : Sound workflow policy live)
    {id : NodeId} (hmay : mayBegin workflow live id = true) :
    Due workflow policy (derive live.log) id ∧
      (Work workflow policy id → (derive live.log).isActive id = true ∨ id ∈ live.driven) := by
  simp only [mayBegin, Bool.or_eq_true, List.contains_iff_mem, List.any_eq_true,
    Bool.and_eq_true, decide_eq_true_eq, bne_iff_ne] at hmay
  rcases hmay with (hdriven | hactive) | ⟨top, htop, ⟨hstate, nested, hnested, rfl⟩, hrest⟩
  · exact ⟨h.due id (.inr hdriven), fun _ => .inr hdriven⟩
  · exact ⟨h.due id (.inl (hasState_of_active hactive)), fun _ => .inl hactive⟩
  · refine ⟨(h.due top.id (.inl hstate)).nested hdistinct ⟨top, htop, rfl, nested, hnested, rfl⟩
      (nests_self htop) hstate, ?_⟩
    -- a top-level node is nested in itself alone, and is then a gate
    rintro ⟨node, hnode, hid, hgate, -⟩
    have htopNode : top = node := top_unique hdistinct htop hnode hnested (self_nested node) hid.symm
    subst htopNode
    rcases hrest with hne | htopGate
    · exact absurd hid hne
    · rw [hgate] at htopGate
      cases htopGate

/-- **An event keeps the invariant.** -/
theorem sound_event (hdistinct : workflow.Distinct) (h : Sound workflow policy live)
    {event : StoredEvent} (hmeets : InOrder workflow policy live (.event event))
    (hstep : step workflow policy live (.event event) = some next) :
    Sound workflow policy next := by
  unfold step at hstep
  dsimp only at hstep
  split at hstep
  swap
  · cases hstep
  next hguard =>
  obtain ⟨hacc, hbegins, hparks⟩ := hguard
  cases hstep
  obtain ⟨hr, hderive⟩ := derive_snoc hacc
  have hmay : ∀ id, begins event = some id → mayBegin workflow live id = true := by
    intro id hid
    rw [hid] at hbegins
    exact hbegins
  have hkept : ∀ node ∈ workflow.nodes, isGate node = false →
      Kept ((derive live.log).taken event) node.id ∧
        ((derive live.log).nodes.hasState node.id = true →
          ((derive live.log).taken event).nodes.hasState node.id = true) := by
    intro node hnode hgate
    refine (h.kept node hnode hgate).taken hr fun hopens => ⟨hmeets node hnode hgate hopens, ?_⟩
    rcases opens_cases hr hopens with ⟨hid, hpark⟩ | hrunning
    · have hpark' := hparks hpark
      rw [hid] at hpark'
      simp only [Option.all_some, mayPark, Bool.or_eq_true, Bool.not_eq_true',
        List.any_eq_false, Bool.and_eq_true, decide_eq_true_eq] at hpark'
      rcases hpark' with hstate | hnone
      · exact hstate
      · exact absurd ⟨rfl, by simp [hgate]⟩ (hnone node hnode)
    · exact hasState_of_active (by rw [RunState.isActive, hrunning]; rfl)
  have hgrows := fun node hnode hgate => (hkept node hnode hgate).2
  -- a node that has a state, or is active, after the event was so before it, or begins
  have hback : ∀ id, ((derive live.log).taken event).nodes.hasState id = true →
      (derive live.log).nodes.hasState id = true ∨ begins event = some id := by
    intro id hstate
    rcases taken_state_cases hr id with hsame | hbegin | hactive
    · refine .inl ?_
      rw [NodeLedger.hasState] at hstate ⊢
      rwa [hsame] at hstate
    · exact .inr hbegin
    · exact .inl (hasState_of_active hactive)
  have hbackActive : ∀ id, ((derive live.log).taken event).isActive id = true →
      (derive live.log).isActive id = true ∨ begins event = some id := by
    intro id hactive'
    rcases taken_state_cases hr id with hsame | hbegin | hactive
    · refine .inl ?_
      rw [RunState.isActive, RunState.isRunning, RunState.isWaiting] at hactive' ⊢
      rwa [hsame] at hactive'
    · exact .inr hbegin
    · exact .inl hactive
  have hwas : ∀ id, Work workflow policy id →
      ((derive (live.log ++ [event])).isActive id = true ∨ id ∈ live.driven) →
      ((derive live.log).isActive id = true ∨ id ∈ live.driven) := by
    intro id hwork hid
    rw [hderive] at hid
    rcases hid with hid | hid
    · rcases hbackActive id hid with hid | hid
      · exact .inl hid
      · exact (due_of_mayBegin hdistinct h (hmay id hid)).2 hwork
    · exact .inr hid
  refine ⟨hacc, fun id hid => ?_, fun node hnode hgate => ?_, fun a b ha hb hne haa hba => ?_⟩
  · rw [hderive] at hid ⊢
    have hdue : Due workflow policy (derive live.log) id := by
      rcases hid with hid | hid
      · rcases hback id hid with hid | hid
        · exact h.due id (.inl hid)
        · exact (due_of_mayBegin hdistinct h (hmay id hid)).1
      · exact h.due id (.inr hid)
    exact hdue.mono hgrows
  · rw [hderive]
    exact (hkept node hnode hgate).1
  · exact h.apart a b ha hb hne (hwas a ha haa) (hwas b hb hba)

/-! ## The narrowed graph -/

/-- **Every edge of the file is behind a node whose dependencies are**: one the mode keeps has its
    state, and one it leaves out hands on what it waits on. -/
theorem hasState_of_inherits (hdistinct : workflow.Distinct)
    (hkeeps : KeepsChildren workflow policy.modeNodes) (h : Sound workflow policy live)
    {m : Node} (hm : m ∈ workflow.nodes) (hgate : isGate m = false)
    (hinc : isIncluded policy.modeNodes m.id = true) {t : NodeId}
    (hwaits : TransGen workflow.Waits t m.id) :
    (∀ d, Inherits workflow policy.modeNodes t d → (derive live.log).nodes.hasState d = true) →
      (derive live.log).nodes.hasState m.id = true := by
  induction hwaits using TransGen.head_induction_on with
  | single hstep =>
    obtain ⟨node, hnode, rfl, dep, hdep, hnests⟩ := hstep
    intro hinherits
    cases hkept : isIncluded policy.modeNodes dep with
    | true =>
      have hstate := hinherits dep (.kept (by rwa [declared_eq hdistinct hnode]) hkept)
      by_cases hne : m.id = dep
      · rwa [hne]
      · exact (h.due dep (.inl hstate) m.id hnests).1 hne
    | false =>
      -- what the mode leaves out is top-level, so it is `m`, which the mode keeps
      obtain ⟨top, htop, hid, nested⟩ := hnests
      have hsame := ((hkeeps node hnode dep hdep).resolve_left (by simp [hkept])) top htop nested
      rw [← hsame, hid, hinc] at hkept
      cases hkept
  | head hstep hrest ih =>
    obtain ⟨node, hnode, rfl, dep, hdep, hnests⟩ := hstep
    intro hinherits
    cases hkept : isIncluded policy.modeNodes dep with
    | true =>
      have hstate := hinherits dep (.kept (by rwa [declared_eq hdistinct hnode]) hkept)
      exact (h.due dep (.inl hstate) _ hnests).2 m hm hgate hinc hrest
    | false =>
      obtain ⟨top, htop, hid, nested⟩ := hnests
      have hsame := ((hkeeps node hnode dep hdep).resolve_left (by simp [hkept])) top htop nested
      refine ih fun d hd => hinherits d ?_
      rw [← hid, hsame] at hd
      exact .through (by rwa [declared_eq hdistinct hnode]) hkept hd

/-- **What is fresh and has its dependencies finished is due.** -/
theorem due_of_fresh (hdistinct : workflow.Distinct)
    (hkeeps : KeepsChildren workflow policy.modeNodes)
    (hcycle : Precedence.Acyclic (Drops workflow policy.modeNodes))
    (h : Sound workflow policy live) {node : Node}
    (hnode : node ∈ (Board.of workflow (derive live.log) policy).nodes)
    (hfresh : (Board.of workflow (derive live.log) policy).isFresh node = true) :
    Due workflow policy (derive live.log) node.id := by
  obtain ⟨hmem, hinc⟩ := List.mem_filter.mp hnode
  obtain ⟨deps, hdeps, hall⟩ := depends_of_inherits hcycle.apart hmem hinc
  have hsatisfied : ∀ dep ∈ deps, (derive live.log).nodes.hasState dep = true := by
    intro dep hdep
    simp only [Board.isFresh, Board.depsSatisfied, Bool.and_eq_true, List.all_eq_true] at hfresh
    have hof : (Board.of workflow (derive live.log) policy).depsOf node.id = deps := by
      show ((dependenciesInMode workflow policy.modeNodes)[node.id]?).getD [] = deps
      rw [hdeps]
      rfl
    have hfinished := hfresh.2 dep (hof ▸ hdep)
    rw [NodeLedger.hasState]
    cases hstate : (derive live.log).nodes.state dep with
    | none =>
      rw [Board.finished, show (Board.of workflow (derive live.log) policy).state.nodes.state dep =
        none from hstate] at hfinished
      cases hfinished
    | some st => rfl
  intro top htop
  obtain rfl := nests_unique hdistinct htop (nests_self hmem)
  refine ⟨fun hne => absurd rfl hne, fun m hm hgate hmInc hwaits => ?_⟩
  exact hasState_of_inherits hdistinct hkeeps h hm hgate hmInc hwaits fun d hd =>
    hsatisfied d (hall d hd)

/-! ## What a decision drives together -/

/-- No included node that is no gate is active, where the board is quiet. -/
theorem not_active_of_quiet (hquiet : (Board.of workflow (derive live.log) policy).Quiet)
    (id : NodeId) (hwork : Work workflow policy id) : (derive live.log).isActive id = false := by
  obtain ⟨node, hnode, rfl, hgate, hinc⟩ := hwork
  exact hquiet node (List.mem_filter.mpr ⟨hnode, hinc⟩) hgate

/-- A fresh node waits on no fresh node. -/
theorem not_waits_of_fresh (hdistinct : workflow.Distinct)
    (hkeeps : KeepsChildren workflow policy.modeNodes)
    (hcycle : Precedence.Acyclic (Drops workflow policy.modeNodes))
    (h : Sound workflow policy live) {a b : NodeId} (hb : Work workflow policy b)
    (hfreshA : ∃ node ∈ (Board.of workflow (derive live.log) policy).nodes, node.id = a ∧
      (Board.of workflow (derive live.log) policy).isFresh node = true)
    (hfreshB : ∃ node ∈ (Board.of workflow (derive live.log) policy).nodes, node.id = b ∧
      (Board.of workflow (derive live.log) policy).isFresh node = true) :
    ¬ TransGen workflow.Waits a b := by
  intro hwaits
  obtain ⟨node, hnode, rfl, hfresh⟩ := hfreshA
  obtain ⟨other, -, rfl, hother⟩ := hfreshB
  obtain ⟨m, hm, hid, hgate, hinc⟩ := hb
  have hmem := (List.mem_filter.mp hnode).1
  rw [← hid] at hwaits hinc
  have hstate := (due_of_fresh hdistinct hkeeps hcycle h hnode hfresh node.id
    (nests_self hmem)).2 m hm hgate hinc hwaits
  rw [hid] at hstate
  simp only [Board.isFresh, Bool.and_eq_true, Bool.not_eq_true'] at hother
  rw [show (Board.of workflow (derive live.log) policy).state.nodes.hasState other.id =
    (derive live.log).nodes.hasState other.id from rfl, hstate] at hother
  cases hother.1.1

/-- **Two nodes driven together do not wait on one another**, beside whatever is active. -/
theorem apart_of_drives (hdistinct : workflow.Distinct)
    (hkeeps : KeepsChildren workflow policy.modeNodes)
    (hcycle : Precedence.Acyclic (Drops workflow policy.modeNodes))
    (h : Sound workflow policy live) {a b : NodeId} (ha : Work workflow policy a)
    (hb : Work workflow policy b) (hne : a ≠ b)
    (haa : (derive live.log).isActive a = true ∨
      a ∈ (Yunta.decide workflow (derive live.log) policy).drives)
    (hba : (derive live.log).isActive b = true ∨
      b ∈ (Yunta.decide workflow (derive live.log) policy).drives) :
    ¬ TransGen workflow.Waits a b := by
  cases decide_drives workflow policy h.accepted with
  | standing hactive hbatched =>
    refine h.apart a b ha hb hne (.inl ?_) (.inl ?_)
    · exact haa.elim id (hactive a)
    · exact hba.elim id (hactive b)
  | alone hquiet hone hfrom =>
    -- both are the one node driven
    have hinactive := not_active_of_quiet hquiet
    rw [hinactive a ha] at haa
    rw [hinactive b hb] at hba
    have hina := haa.resolve_left Bool.false_ne_true
    have hinb := hba.resolve_left Bool.false_ne_true
    match hdrives : (Yunta.decide workflow (derive live.log) policy).drives with
    | [] => rw [hdrives] at hina; cases hina
    | [only] =>
      rw [hdrives, List.mem_singleton] at hina hinb
      exact absurd (hina.trans hinb.symm) hne
    | _ :: _ :: _ => rw [hdrives] at hone; simp at hone
  | fresh hquiet hfresh hbatched =>
    have hinactive := not_active_of_quiet hquiet
    rw [hinactive a ha] at haa
    rw [hinactive b hb] at hba
    exact not_waits_of_fresh hdistinct hkeeps hcycle h hb
      (hfresh a (haa.resolve_left Bool.false_ne_true))
      (hfresh b (hba.resolve_left Bool.false_ne_true))

/-- **A decision keeps the invariant.** -/
theorem sound_decide (hdistinct : workflow.Distinct)
    (hkeeps : KeepsChildren workflow policy.modeNodes)
    (hcycle : Precedence.Acyclic (Drops workflow policy.modeNodes))
    (h : Sound workflow policy live) (hmeets : InOrder workflow policy live .decide) :
    Sound workflow policy
      ⟨live.log, (Yunta.decide workflow (derive live.log) policy).drives⟩ := by
  refine ⟨h.accepted, fun id hid => ?_, h.kept, fun a b ha hb hne haa hba =>
    apart_of_drives hdistinct hkeeps hcycle h ha hb hne haa hba⟩
  rcases hid with hid | hid
  · exact h.due id (.inl hid)
  cases decide_drives workflow policy h.accepted with
  | standing hactive hbatched => exact h.due id (.inl (hasState_of_active (hactive id hid)))
  | alone hquiet hone hfrom =>
    rcases hfrom id hid with hstate | hfailure
    · exact h.due id (.inl hstate)
    · rcases hmeets _ hfailure rfl id hid with hstate | hdue
      · exact h.due id (.inl hstate)
      · exact hdue
  | fresh hquiet hfresh hbatched =>
    obtain ⟨node, hnode, rfl, hnew⟩ := hfresh id hid
    exact due_of_fresh hdistinct hkeeps hcycle h hnode hnew

theorem sound_step (hdistinct : workflow.Distinct)
    (hkeeps : KeepsChildren workflow policy.modeNodes)
    (hcycle : Precedence.Acyclic (Drops workflow policy.modeNodes)) {act : Act}
    (h : Sound workflow policy live) (hmeets : InOrder workflow policy live act)
    (hstep : step workflow policy live act = some next) : Sound workflow policy next := by
  cases act with
  | decide =>
    cases hstep
    exact sound_decide hdistinct hkeeps hcycle h hmeets
  | event event => exact sound_event hdistinct h hmeets hstep

/-! ## Side by side -/

/-- Any two nodes of the batch a state decides that may write select no common path. -/
def SideBySide (workflow : Workflow) (policy : Policy) (selects : ScopeGlob → String → Bool)
    (live : Live) : Prop :=
  ∀ batch, Yunta.decide workflow (derive live.log) policy = .execute batch →
    ∀ a ∈ workflow.nodes, ∀ b ∈ workflow.nodes, a.id ≠ b.id → a.id ∈ batch.map (·.1) →
      b.id ∈ batch.map (·.1) → a.writesWorktree = true → b.writesWorktree = true →
      ∀ globA ∈ a.scope.overlapGlobs, ∀ globB ∈ b.scope.overlapGlobs, ∀ path,
        selects globA path = true → selects globB path = false

/-- **Nodes run side by side never write the same files**, in every run whose steps keep to the
    order of the file, where the mode keeps each dependency on a group's child, no cycle runs
    through the nodes it leaves out, and overlap misses no pair of globs. -/
theorem side_by_side (workflow : Workflow) (policy : Policy)
    (selects : ScopeGlob → String → Bool) (maxParallelNodes : Nat) (hglob : Globset selects)
    (hdistinct : workflow.Distinct) (hmax : 1 < maxParallelNodes)
    (hcheck : checkFanoutScopes selects workflow maxParallelNodes = [])
    (hkeeps : KeepsChildren workflow policy.modeNodes)
    (hcycle : Precedence.Acyclic (Drops workflow policy.modeNodes)) (hmiss : MissesNone workflow)
    (live : Live)
    (hreached : Reached (step workflow policy) (InOrder workflow policy) born live) :
    SideBySide workflow policy selects live := by
  intro batch hbatch a ha b hb hne hina hinb hwa hwb globA hga globB hgb path hpa
  have hsound : Sound workflow policy live := hreached.invariant sound_born
    fun s act s' hs hmeets htaken => sound_step hdistinct hkeeps hcycle hs hmeets htaken
  have hdrives : (Yunta.decide workflow (derive live.log) policy).drives = batch.map (·.1) := by
    rw [hbatch]
    rfl
  rw [← hdrives] at hina hinb
  -- two nodes of a batch are the board's, and no gates
  have hwork : ∀ n ∈ workflow.nodes,
      n.id ∈ (Yunta.decide workflow (derive live.log) policy).drives →
      Work workflow policy n.id := by
    intro n hn hmem
    have hbatched : (Board.of workflow (derive live.log) policy).Batched
        (Yunta.decide workflow (derive live.log) policy) := by
      cases decide_drives workflow policy hsound.accepted with
      | standing hactive hbatched => exact hbatched
      | alone hquiet hone hfrom => exact .inl hone
      | fresh hquiet hfresh hbatched => exact hbatched
    rcases hbatched with hone | hall
    · match hlist : (Yunta.decide workflow (derive live.log) policy).drives with
      | [] => rw [hlist] at hina; cases hina
      | [only] =>
        rw [hlist, List.mem_singleton] at hina hinb
        exact absurd (hina.trans hinb.symm) hne
      | _ :: _ :: _ => rw [hlist] at hone; simp at hone
    · obtain ⟨node, hnode, hid, hgate⟩ := hall n.id hmem
      obtain ⟨hnode, hinc⟩ := List.mem_filter.mp hnode
      exact ⟨node, hnode, hid, hgate, hid ▸ hinc⟩
  have hapart : ∀ x y : Node, x ∈ workflow.nodes → y ∈ workflow.nodes → x.id ≠ y.id →
      x.id ∈ (Yunta.decide workflow (derive live.log) policy).drives →
      y.id ∈ (Yunta.decide workflow (derive live.log) policy).drives →
      ¬ TransGen workflow.Waits x.id y.id := fun x y hx hy hxy hinx hiny =>
    apart_of_drives hdistinct hkeeps hcycle hsound (hwork x hx hinx) (hwork y hy hiny) hxy
      (.inr hinx) (.inr hiny)
  exact no_common_of_check hglob hcheck hmax hmiss ha hb hne (hapart a b ha hb hne hina hinb)
    (hapart b a hb ha (Ne.symm hne) hinb hina) hwa hwb hga hgb hpa

end

/-- A node that runs a command, under a scope. -/
def bash (id : NodeId) (deps : List NodeId) (scope : NodeScope) : Node :=
  ⟨id, .bash, deps, none, none, none, false, scope⟩

/-- A chain whose middle the mode leaves out, beside a node of another scope. -/
def chainWorkflow : Workflow :=
  ⟨[bash "a" [] (.globs ["src/**"]), bash "mid" ["a"] .unscoped,
    bash "c" ["mid"] (.globs ["src/**"]), bash "b" [] (.globs ["docs/**"])]⟩

def chainPolicy : Policy := { maxParallelNodes := 2, modeNodes := some ["a", "b", "c"] }

theorem side_by_side_chain :
    Yunta.decide chainWorkflow (derive []) chainPolicy = .execute [("a", 1), ("b", 1)] ∧
      plainSelects "src/**" "src/a" = true ∧ plainSelects "docs/**" "src/a" = false := by
  have hbatch : Yunta.decide chainWorkflow (derive born.log) chainPolicy =
      .execute [("a", 1), ("b", 1)] := by decide +kernel
  have hcycle : Precedence.Acyclic (Drops chainWorkflow chainPolicy.modeNodes) := by
    refine Precedence.acyclic_of_rank (fun _ => 0) ?_
    rintro id dep ⟨hdep, hout, hout'⟩
    have hall : ∀ id ∈ chainWorkflow.nodes.map (·.id), ∀ dep ∈ chainWorkflow.declared id,
        isIncluded chainPolicy.modeNodes id = false →
        isIncluded chainPolicy.modeNodes dep = true := by decide +kernel
    have hkept := hall id (Workflow.mem_of_declared hdep) dep hdep hout
    rw [hout'] at hkept
    cases hkept
  have happly := side_by_side chainWorkflow chainPolicy plainSelects 2 plainSelects_globset
    (by decide +kernel) (by decide) (by decide +kernel) (by decide +kernel) hcycle
    (by decide +kernel) born .refl _ hbatch
  have hsrc : plainSelects "src/**" "src/a" = true := by decide +kernel
  refine ⟨hbatch, hsrc, ?_⟩
  exact happly (bash "a" [] (.globs ["src/**"])) (by simp [chainWorkflow])
    (bash "b" [] (.globs ["docs/**"])) (by simp [chainWorkflow]) (by decide) (by decide)
    (by decide) rfl rfl "src/**" (by simp [bash, NodeScope.overlapGlobs]) "docs/**"
    (by simp [bash, NodeScope.overlapGlobs]) "src/a" hsrc

/-! ## Where two writers meet -/

/-- `x` waits on a group's child, which a mode that lists the group does not list. -/
def memberWorkflow : Workflow :=
  ⟨[bash "v" [] (.globs ["src/**"]),
    ⟨"g", .parallel [bash "child" [] .unscoped], ["v"], none, none, none, false, .unscoped⟩,
    bash "x" ["child"] (.globs ["src/**"])]⟩

def memberPolicy : Policy := { maxParallelNodes := 2, modeNodes := some ["v", "g", "x"] }

/-- `f` corrects itself through `w`, which waits on `v` and is waited on by `u`. -/
def aheadWorkflow : Workflow :=
  ⟨[⟨"f", .bash, [], some ⟨"w", 1⟩, none, none, false, .unscoped⟩, bash "h" [] .unscoped,
    bash "v" [] (.globs ["src/**"]), bash "w" ["v"] .unscoped,
    bash "u" ["w"] (.globs ["src/**"])]⟩

def twoPolicy : Policy := { maxParallelNodes := 2 }

/-- `f` fails beside `h`, its correction `w` runs ahead of `v`, and `f` runs again. -/
def aheadActs : List Act :=
  [.decide, .event (nodeEvent 1 0 "f" (.started ⟨1, none, none⟩)),
   .event (nodeEvent 2 0 "h" (.started ⟨1, none, none⟩)),
   .event (nodeEvent 3 0 "h" (.finished {})),
   .event (nodeEvent 4 0 "f" (.failed ⟨.exited 1, {}, none⟩)), .decide,
   .event (nodeEvent 5 0 "f" (.rerouted { toNode := "w", cause := .exited 1 })), .decide,
   .event (nodeEvent 6 0 "w" (.started ⟨1, none, none⟩)),
   .event (nodeEvent 7 0 "w" (.finished {})), .decide,
   .event (nodeEvent 8 0 "f" (.started ⟨2, none, none⟩)),
   .event (nodeEvent 9 0 "f" (.finished {}))]

/-- One scope is written as every directory, and the other ends in a name. -/
def missedWorkflow : Workflow :=
  ⟨[bash "a" [] (.globs ["**/"]), bash "b" [] (.globs ["src/*.rs"])]⟩

/-- A decided batch of two writers whose globs select one path. -/
theorem not_sideBySide {workflow : Workflow} {policy : Policy} {live : Live} (a b : Node)
    (batch : List (NodeId × Nat)) (globA globB : ScopeGlob) (path : String)
    (hbatch : Yunta.decide workflow (derive live.log) policy = .execute batch)
    (ha : a ∈ workflow.nodes) (hb : b ∈ workflow.nodes) (hne : a.id ≠ b.id)
    (hina : a.id ∈ batch.map (·.1)) (hinb : b.id ∈ batch.map (·.1))
    (hwrites : a.writesWorktree = true ∧ b.writesWorktree = true)
    (hga : globA ∈ a.scope.overlapGlobs) (hgb : globB ∈ b.scope.overlapGlobs)
    (hpath : plainSelects globA path = true ∧ plainSelects globB path = true) :
    ¬ SideBySide workflow policy plainSelects live := by
  intro h
  have hnone := h batch hbatch a ha b hb hne hina hinb hwrites.1 hwrites.2 globA hga globB hgb
    path hpath.1
  rw [hpath.2] at hnone
  cases hnone

theorem not_side_by_side :
    (memberWorkflow.Distinct ∧ checkFanoutScopes plainSelects memberWorkflow 2 = [] ∧
      ¬ SideBySide memberWorkflow memberPolicy plainSelects born) ∧
    (aheadWorkflow.Distinct ∧ checkFanoutScopes plainSelects aheadWorkflow 2 = [] ∧
      ∃ live, Reached (step aheadWorkflow twoPolicy) Free born live ∧
        ¬ SideBySide aheadWorkflow twoPolicy plainSelects live) ∧
    (missedWorkflow.Distinct ∧ checkFanoutScopes plainSelects missedWorkflow 2 = [] ∧
      ¬ SideBySide missedWorkflow twoPolicy plainSelects born) := by
  refine ⟨⟨by decide +kernel, by decide +kernel, ?_⟩, ⟨by decide +kernel, by decide +kernel, ?_⟩,
    by decide +kernel, by decide +kernel, ?_⟩
  · exact not_sideBySide (bash "v" [] (.globs ["src/**"])) (bash "x" ["child"] (.globs ["src/**"]))
      [("v", 1), ("x", 1)] "src/**"
      "src/**" "src/a" (by decide +kernel) (by simp [memberWorkflow]) (by simp [memberWorkflow])
      (by decide) (by decide) (by decide) ⟨rfl, rfl⟩ (by simp [bash, NodeScope.overlapGlobs])
      (by simp [bash, NodeScope.overlapGlobs]) (by decide +kernel)
  · obtain ⟨live, hreached, hdecides⟩ := exists_reached (step aheadWorkflow twoPolicy) Free born
      aheadActs (fun live => Yunta.decide aheadWorkflow (derive live.log) twoPolicy =
        .execute [("v", 1), ("u", 1)]) (by decide +kernel)
    refine ⟨live, hreached, ?_⟩
    exact not_sideBySide (bash "v" [] (.globs ["src/**"])) (bash "u" ["w"] (.globs ["src/**"]))
      [("v", 1), ("u", 1)] "src/**"
      "src/**" "src/a" (of_decide_eq_true hdecides) (by simp [aheadWorkflow])
      (by simp [aheadWorkflow]) (by decide) (by decide) (by decide) ⟨rfl, rfl⟩
      (by simp [bash, NodeScope.overlapGlobs]) (by simp [bash, NodeScope.overlapGlobs])
      (by decide +kernel)
  · exact not_sideBySide (bash "a" [] (.globs ["**/"])) (bash "b" [] (.globs ["src/*.rs"]))
      [("a", 1), ("b", 1)] "**/" "src/*.rs"
      "src/x.rs" (by decide +kernel) (by simp [missedWorkflow]) (by simp [missedWorkflow])
      (by decide) (by decide) (by decide) ⟨rfl, rfl⟩ (by simp [bash, NodeScope.overlapGlobs])
      (by simp [bash, NodeScope.overlapGlobs]) (by decide +kernel)

end Yunta.Fanout
