/-
  A wait interrupts a node, and its close gives back the state it interrupted.

  1. **What a gate event does** — `gateTransition` parks the node it names or restores it, and
     leaves every other node's state and kept state alone.

  2. **Refinement** — `Holds` reads a node of the state as an `Interrupt` of its lifecycle state:
     at rest, or held by a wait that keeps the state it interrupted.  Every taken event is a move of
     that machine, unless it parks a node that is already waiting: the slot then keeps the wait
     itself, and the state before the first wait is lost.

  3. **Runs** — a log in which no wait opens on a waiting node restores what its waits interrupt
     (`waits_restore`); `reparked_strands` is the log where a second one does not.
-/
import Yunta.Replay.Refusal
import Yunta.Lib.Interrupt

set_option linter.unusedVariables false

namespace Yunta

open Interrupt (Move)

/-! ## Waits of a node -/

/-- A gate or a round of questions opens a wait; a resolution or an answer closes one. -/
def gateMove : GateEvent → Move
  | .waiting _ | .questionsAsked _ => .opens
  | .resolved _ | .questionsAnswered _ => .closes
  | .askingOpened => .quiet

/-- A start or a terminal puts the node in a state of its own. -/
def nodeMove : NodeEvent → Move
  | .started _ | .finished _ | .failed _ => .replaces
  | _ => .quiet

/-- What `event` does to the state of `node`. -/
def waitMove (node : NodeId) (event : StoredEvent) : Move :=
  if event.nodeId = some node then
    match event.payload with
    | some (.gates e) => gateMove e
    | some (.node e) => nodeMove e
    | _ => .quiet
  else .quiet

/-- Whether `log` leaves a wait of `node` open. -/
def openWait (node : NodeId) (log : List StoredEvent) : Bool :=
  Interrupt.openAfter false (log.map (waitMove node))

namespace RunState

/-- `node` read as an interruptible state: at rest in a state that is no wait, or held by a wait
    whose slot keeps such a state. -/
def Holds (s : RunState) (node : NodeId) : Interrupt (Option NodeState) → Prop
  | .atRest state => s.nodes.state node = state ∧ s.isWaiting node = false
  | .held state =>
    s.isWaiting node = true ∧ s.preGate[node]? = some state ∧
      state.any NodeState.isWaiting = false

/-! ## What a gate event does -/

section
variable (s : RunState) (node a : NodeId)

theorem park_state (on : NodeWait) :
    (s.park node on).nodes.state a =
      if node = a then some (.waiting on) else s.nodes.state a :=
  s.nodes.state_setState node a _

theorem park_preGate (on : NodeWait) :
    (s.park node on).preGate[a]? =
      if node = a then some (s.nodes.state node) else s.preGate[a]? :=
  OrdMap.getElem?_insert_eq ..

theorem unpark_state (at_ : Int) :
    (s.unpark node at_).nodes.state a =
      if node = a then (s.preGate[node]?).join else s.nodes.state a := by
  refine ((s.nodes.setState node _).state_resumeWorking node a at_).trans ?_
  exact s.nodes.state_setState node a _

theorem unpark_preGate (at_ : Int) :
    (s.unpark node at_).preGate[a]? = if node = a then none else s.preGate[a]? :=
  OrdMap.getElem?_erase_eq ..

end

/-- A gate event leaves every node but its own as it was. -/
theorem gateTransition_other (s : RunState) (e : GateEvent) {event : StoredEvent} {a : NodeId}
    (ha : event.nodeId ≠ some a) :
    (s.gateTransition e event).1.nodes.state a = s.nodes.state a ∧
      (s.gateTransition e event).1.preGate[a]? = s.preGate[a]? := by
  unfold gateTransition
  cases hnode : event.nodeId with
  | none => exact ⟨rfl, rfl⟩
  | some node =>
    have hne : node ≠ a := fun he => ha (by rw [hnode, he])
    cases e with
    | waiting p =>
      refine ⟨?_, (s.park_preGate node a (.gate p.externalRef)).trans (if_neg hne)⟩
      exact ((s.park node _).nodes.state_stopWorking node a _ _).trans
        ((s.park_state node a _).trans (if_neg hne))
    | resolved p =>
      dsimp only
      split
      · exact ⟨(s.unpark_state node a _).trans (if_neg hne),
          (s.unpark_preGate node a _).trans (if_neg hne)⟩
      · exact ⟨rfl, rfl⟩
    | questionsAsked round =>
      simp only [questionsAsked]
      split
      · exact ⟨rfl, rfl⟩
      · refine ⟨(park_state _ node a _).trans ((if_neg hne).trans ?_),
          (park_preGate _ node a _).trans (if_neg hne)⟩
        exact s.nodes.state_settleAsking node a _ _ _
    | questionsAnswered p =>
      exact ⟨(s.unpark_state node a _).trans (if_neg hne),
        (s.unpark_preGate node a _).trans (if_neg hne)⟩
    | askingOpened => exact ⟨s.nodes.state_stopWorking node a _ _, rfl⟩

/-- A wait holds the state it found, when that state is no wait. -/
theorem park_holds {s t : RunState} {node : NodeId} (on : NodeWait) (hw : s.isWaiting node = false)
    (hstate : t.nodes.state node = some (.waiting on))
    (hslot : t.preGate[node]? = some (s.nodes.state node)) :
    t.Holds node (.held (s.nodes.state node)) :=
  ⟨by simp [isWaiting, hstate, NodeState.isWaiting], hslot, hw⟩

/-- The close of a held wait gives back the state its slot keeps. -/
theorem unpark_holds {s : RunState} {node : NodeId} {state : Option NodeState}
    (h : s.Holds node (.held state)) (at_ : Int) : (s.unpark node at_).Holds node (.atRest state) := by
  obtain ⟨-, hslot, hrest⟩ := h
  have hstate : (s.unpark node at_).nodes.state node = state := by
    rw [unpark_state, if_pos rfl, hslot]
    rfl
  exact ⟨hstate, by rw [isWaiting, hstate]; exact hrest⟩

/-- A node waiting is held. -/
theorem holds_waiting {s : RunState} {node : NodeId} {w : Interrupt (Option NodeState)}
    (h : s.Holds node w) (hw : s.isWaiting node = true) : ∃ state, w = .held state := by
  cases w with
  | atRest state => rw [h.2] at hw; cases hw
  | held state => exact ⟨state, rfl⟩

theorem holds_resting {s : RunState} {node : NodeId} {w : Interrupt (Option NodeState)}
    (h : s.Holds node w) (hw : s.isWaiting node = false) : w = .atRest (s.nodes.state node) := by
  cases w with
  | atRest state => rw [h.1]
  | held state => rw [h.1] at hw; cases hw

/-- What a node holds is read off its state and its slot. -/
theorem holds_congr {s t : RunState} {node : NodeId} {w : Interrupt (Option NodeState)}
    (hstate : t.nodes.state node = s.nodes.state node) (hslot : t.preGate[node]? = s.preGate[node]?)
    (h : s.Holds node w) : t.Holds node w := by
  have hw : t.isWaiting node = s.isWaiting node := by rw [isWaiting, isWaiting, hstate]
  cases w with
  | atRest state => exact ⟨hstate.trans h.1, hw.trans h.2⟩
  | held state => exact ⟨hw.trans h.1, hslot.trans h.2.1, h.2.2⟩

/-- **A gate event is a move of the node it names**, unless it parks a node already waiting. -/
theorem gateTransition_holds {s : RunState} {e : GateEvent} {event : StoredEvent} {node : NodeId}
    {w : Interrupt (Option NodeState)} (hnode : event.nodeId = some node)
    (hr : s.refuseGate e event = .ok ()) (h : s.Holds node w)
    (hopen : gateMove e = .opens → s.isWaiting node = false) :
    ∃ w', Interrupt.Step w (gateMove e) w' ∧ (s.gateTransition e event).1.Holds node w' := by
  unfold gateTransition
  unfold refuseGate at hr
  rw [hnode] at hr ⊢
  cases e with
  | waiting p =>
    have hrest := hopen rfl
    obtain rfl := holds_resting h hrest
    refine ⟨_, .opens _, park_holds (.gate p.externalRef) hrest ?_ ?_⟩
    · refine ((s.park node _).nodes.state_stopWorking node node _ _).trans ?_
      rw [park_state, if_pos rfl]
    · exact (s.park_preGate node node (.gate p.externalRef)).trans (if_pos rfl)
  | resolved p =>
    dsimp only
    cases hw : s.isWaiting node with
    | true =>
      obtain ⟨state, rfl⟩ := holds_waiting h hw
      exact ⟨_, .closes _, unpark_holds h _⟩
    | false =>
      obtain rfl := holds_resting h hw
      exact ⟨_, .idle _, h⟩
  | questionsAsked round =>
    have hrest := hopen rfl
    obtain rfl := holds_resting h hrest
    dsimp only at hr ⊢
    cases hq : round.questions with
    | nil =>
      -- the check refused a round with no question
      simp only [hq, List.isEmpty_nil, if_true] at hr
      split at hr <;> cases hr
    | cons q rest =>
      simp only [questionsAsked, hq]
      have hsettled := s.nodes.state_settleAsking node node round.tokensUsed event.meta_
        s.run.suspensions
      refine ⟨_, .opens _, park_holds (.questions (q :: rest)) hrest ?_ ?_⟩
      · exact (park_state _ node node _).trans (if_pos rfl)
      · refine (park_preGate _ node node (.questions (q :: rest))).trans ((if_pos rfl).trans ?_)
        exact congrArg some hsettled
  | questionsAnswered p =>
    dsimp only at hr ⊢
    split at hr
    · next hw =>
      obtain ⟨state, rfl⟩ := holds_waiting h hw
      exact ⟨_, .closes _, unpark_holds h _⟩
    · cases hr
  | askingOpened =>
    exact ⟨w, .quiet w, holds_congr (s.nodes.state_stopWorking node node _ _) rfl h⟩

/-- A start or a terminal puts the node at rest; any other event of its own leaves it alone. -/
theorem apply_holds {s t : RunState} {e : NodeEvent} {event : StoredEvent} {node : NodeId}
    {w : Interrupt (Option NodeState)} (hnode : event.nodeId = some node) (h : s.Holds node w)
    (ht : t.nodes = s.nodes.apply e event.meta_ s.run.suspensions) (hslot : t.preGate = s.preGate) :
    ∃ w', Interrupt.Step w (nodeMove e) w' ∧ t.Holds node w' := by
  have hstate : t.nodes.state node =
      (((s.nodes.get node).getD {}).onEvent e event.meta_ s.run.suspensions).state := by
    rw [ht, NodeLedger.state_apply, StoredEvent.meta_node, if_pos hnode]
  rw [NodeRecord.onEvent_state] at hstate
  have hquiet : t.nodes.state node = ((s.nodes.get node).getD {}).state →
      ∃ w', Interrupt.Step w .quiet w' ∧ t.Holds node w' := by
    intro hsame
    refine ⟨w, .quiet w, holds_congr ?_ (by rw [hslot]) h⟩
    rw [hsame, NodeLedger.state]
    cases s.nodes.get node <;> rfl
  have hreplaces : ∀ st : NodeState, t.nodes.state node = some st → st.isWaiting = false →
      ∃ w', Interrupt.Step w .replaces w' ∧ t.Holds node w' := by
    intro st hst hw
    exact ⟨_, .replaces w (some st), hst, by rw [isWaiting, hst]; exact hw⟩
  cases e with
  | started p => exact hreplaces _ hstate rfl
  | finished p => exact hreplaces _ hstate rfl
  | failed p => exact hreplaces _ hstate rfl
  | _ => exact hquiet hstate

/-- An event neither of a node's own nor of a gate leaves every state and every slot. -/
theorem taken_still {s : RunState} {event : StoredEvent} (hr : s.refuse event = .ok ())
    (hnode : ∀ e, event.payload ≠ some (.node e)) (hgate : ∀ e, event.payload ≠ some (.gates e))
    (a : NodeId) :
    (s.taken event).nodes.state a = s.nodes.state a ∧ (s.taken event).preGate = s.preGate := by
  cases hp : event.payload with
  | none => rw [taken_unknown hp]; exact ⟨rfl, rfl⟩
  | some payload =>
    cases payload with
    | run e => rw [taken_run hp]; exact ⟨rfl, rfl⟩
    | node e => exact absurd hp (hnode e)
    | session e => rw [taken_session hr hp]; exact ⟨s.nodes.state_applySession a _ _, rfl⟩
    | tasks e => rw [taken_task hr hp]; exact ⟨rfl, rfl⟩
    | scope e => rw [taken_scope hr hp]; exact ⟨rfl, rfl⟩
    | findings e => rw [taken_finding hp]; exact ⟨rfl, rfl⟩
    | artifacts e => rw [taken_artifact hp]; exact ⟨rfl, rfl⟩
    | gates e => exact absurd hp (hgate e)
    | children e => rw [taken_child hp]; exact ⟨rfl, rfl⟩

/-- **Every taken event is a move of every node**, unless it parks one already waiting. -/
theorem taken_holds {s : RunState} {event : StoredEvent} {node : NodeId}
    {w : Interrupt (Option NodeState)} (hr : s.refuse event = .ok ()) (h : s.Holds node w)
    (hopen : waitMove node event = .opens → s.isWaiting node = false) :
    ∃ w', Interrupt.Step w (waitMove node event) w' ∧ (s.taken event).Holds node w' := by
  unfold waitMove at hopen ⊢
  have hcheck := hr
  unfold refuse at hcheck
  rcases hp : event.payload with _ | payload
  · have hstill := taken_still hr (by simp [hp]) (by simp [hp]) node
    exact ⟨w, by split <;> exact .quiet w, holds_congr hstill.1 (by rw [hstill.2]) h⟩
  rw [hp] at hopen hcheck
  by_cases hnode : event.nodeId = some node
  · rw [if_pos hnode] at hopen ⊢
    cases payload with
    | node e =>
      rw [taken_node hp]
      exact apply_holds hnode h rfl rfl
    | gates e =>
      obtain ⟨w', hstep, hw'⟩ := gateTransition_holds hnode hcheck h hopen
      refine ⟨w', hstep, ?_⟩
      rw [taken_gate hr hp]
      exact holds_congr (s := (s.gateTransition e event).1) rfl rfl hw'
    | _ =>
      have hstill := taken_still hr (by simp [hp]) (by simp [hp]) node
      exact ⟨w, .quiet w, holds_congr hstill.1 (by rw [hstill.2]) h⟩
  · rw [if_neg hnode]
    refine ⟨w, .quiet w, ?_⟩
    cases payload with
    | node e =>
      rw [taken_node hp]
      refine holds_congr (s := s) ?_ rfl h
      exact (s.nodes.state_apply node e event.meta_ s.run.suspensions).trans (if_neg hnode)
    | gates e =>
      rw [taken_gate hr hp]
      have hother := s.gateTransition_other e hnode
      exact holds_congr (s := s) hother.1 hother.2 h
    | _ =>
      have hstill := taken_still hr (by simp [hp]) (by simp [hp]) node
      exact holds_congr hstill.1 (by rw [hstill.2]) h

/-! ## Runs -/

/-- No wait of `node` opens, along the log, while the node is already waiting. -/
def NeverReparks (node : NodeId) (log : List StoredEvent) : Prop :=
  ∀ k (hk : k < log.length), waitMove node log[k] = .opens →
    (derive (log.take k)).isWaiting node = false

instance (node : NodeId) (log : List StoredEvent) : Decidable (NeverReparks node log) :=
  inferInstanceAs (Decidable (∀ k (hk : k < log.length), _ → _))

theorem NeverReparks.at_ {node : NodeId} {log : List StoredEvent} (h : NeverReparks node log)
    {before after : List StoredEvent} {event : StoredEvent} (hlog : log = before ++ event :: after)
    (hopens : waitMove node event = .opens) : (derive before).isWaiting node = false := by
  have hk : before.length < log.length := by rw [hlog]; simp
  have hat := h before.length hk (by simpa [hlog] using hopens)
  simpa [hlog] using hat

/-- What closing a wait restores, at every point of a log: a node waits only while a wait of its
    own is open, and a stretch of waits and closes on a node at rest, with no start or terminal of
    the node between, leaves it in the state it had once its last wait is closed. -/
def WaitsRestore (node : NodeId) (log : List StoredEvent) : Prop :=
  (∀ before after, log = before ++ after → (derive before).isWaiting node = true →
    openWait node before = true) ∧
  (∀ before waits after, log = before ++ waits ++ after →
    (derive before).isWaiting node = false →
    Move.replaces ∉ waits.map (waitMove node) → openWait node waits = false →
    (derive (before ++ waits)).nodes.state node = (derive before).nodes.state node)

/-- A run none of whose waits opens on a waiting node is a path of that node. -/
theorem steps_path {s t : RunState} {log : List StoredEvent} (h : RunSteps s log t) {node : NodeId}
    {w : Interrupt (Option NodeState)} (hw : s.Holds node w)
    (hopen : ∀ before event after u, log = before ++ event :: after → RunSteps s before u →
      waitMove node event = .opens → u.isWaiting node = false) :
    ∃ w', Interrupt.Path w (log.map (waitMove node)) w' ∧ t.Holds node w' := by
  induction h generalizing w with
  | nil s => exact ⟨w, .nil w, hw⟩
  | @cons s u t event rest he hrest ih =>
    obtain ⟨hr, rfl⟩ := apply_ok_iff.mp he
    obtain ⟨v, hstep, hv⟩ := taken_holds hr hw (hopen [] event rest s rfl (.nil s))
    obtain ⟨w', hpath, hw'⟩ := ih hv (by
      intro before e after u' hsplit hu
      exact hopen (event :: before) e after u' (by rw [hsplit]; rfl) (.cons he hu))
    exact ⟨w', .cons hstep hpath, hw'⟩

/-- **A run whose waits never open on a waiting node restores what they interrupt.** -/
theorem waits_restore {node : NodeId} {log : List StoredEvent} (h : Accepted log)
    (hopen : NeverReparks node log) : WaitsRestore node log := by
  have hrun := steps_of_accepted h
  -- every prefix of the log is a path from the empty state
  have hprefix : ∀ before after, log = before ++ after → ∃ w,
      Interrupt.Path (.atRest none) (before.map (waitMove node)) w ∧
        (derive before).Holds node w := by
    intro before after hlog
    rw [hlog] at hrun
    obtain ⟨u, hu, -⟩ := hrun.split
    rw [derive_of_steps hu]
    refine steps_path hu ⟨by rfl, by rfl⟩ ?_
    intro b e a v hb hv
    rw [← derive_of_steps hv]
    exact hopen.at_ (show log = b ++ e :: (a ++ after) by rw [hlog, hb]; simp)
  refine ⟨?_, ?_⟩
  · intro before after hlog hwait
    obtain ⟨w, hpath, hw⟩ := hprefix before after hlog
    obtain ⟨state, rfl⟩ := holds_waiting hw hwait
    exact hpath.held_open (fun hc => nomatch hc) rfl
  · intro before waits after hlog hrest hmoves hclosed
    obtain ⟨w, -, hw⟩ := hprefix before (waits ++ after) (by rw [hlog, List.append_assoc])
    rw [hlog, List.append_assoc] at hrun
    obtain ⟨u, hu, hafter⟩ := hrun.split
    obtain ⟨v, hv, -⟩ := hafter.split
    rw [derive_of_steps hu] at hrest hw ⊢
    rw [derive_of_steps (hu.append hv)]
    obtain rfl := holds_resting hw hrest
    obtain ⟨w', hpath, hw'⟩ := steps_path hv hw (by
      intro b e a x hb hx
      rw [← derive_of_steps (hu.append hx)]
      exact hopen.at_ (show log = (before ++ b) ++ e :: (a ++ after) by rw [hlog, hb]; simp))
    rw [hpath.restores hmoves hclosed] at hw'
    exact hw'.1

/-- A node started, parked at a gate, and given back by its resolution. -/
theorem waits_restore_gate :
    WaitsRestore "a"
      [⟨"", 1, 0, some "a", .known (.node (.started ⟨1, none, none⟩))⟩,
        ⟨"", 2, 0, some "a", .known (.gates (.waiting {}))⟩,
        ⟨"", 3, 0, some "a", .known (.gates (.resolved .closed))⟩] :=
  waits_restore (by decide) (by decide)

/-- What goes wrong otherwise: a wait opened on a waiting node keeps that wait in its slot, so the
    resolution gives the wait back. -/
theorem repark_strands {s : RunState} {node : NodeId} {opening closing : StoredEvent}
    {asked : GateWaitingPayload} {answer : GateResolvedPayload} (hw : s.isWaiting node = true)
    (ho : opening.nodeId = some node) (hop : opening.payload = some (.gates (.waiting asked)))
    (hc : closing.nodeId = some node) (hcp : closing.payload = some (.gates (.resolved answer))) :
    ((s.taken opening).taken closing).isWaiting node = true := by
  have hro : s.refuse opening = .ok () := by simp [refuse, hop, refuseGate, ho]
  have hrc : ∀ t : RunState, t.refuse closing = .ok () := by
    intro t; simp [refuse, hcp, refuseGate, hc]
  have hstate : (s.taken opening).nodes.state node = some (.waiting (.gate asked.externalRef)) := by
    rw [taken_gate hro hop]
    simp only [gateTransition, ho]
    refine ((s.park node _).nodes.state_stopWorking node node _ _).trans ?_
    rw [park_state, if_pos rfl]
  have hslot : (s.taken opening).preGate[node]? = some (s.nodes.state node) := by
    rw [taken_gate hro hop]
    simp only [gateTransition, ho]
    exact (s.park_preGate node node (.gate asked.externalRef)).trans (if_pos rfl)
  have hwait : (s.taken opening).isWaiting node = true := by
    simp [isWaiting, hstate, NodeState.isWaiting]
  rw [taken_gate (hrc _) hcp]
  simp only [gateTransition, hc, hwait, if_true]
  change ((s.taken opening).unpark node closing.timestamp).isWaiting node = true
  rw [isWaiting, unpark_state, if_pos rfl, hslot]
  exact hw

/-- A gate of `a` opened twice, and resolved once. -/
def reparkedLog : List StoredEvent :=
  [⟨"", 1, 0, some "a", .known (.node (.started ⟨1, none, none⟩))⟩,
    ⟨"", 2, 0, some "a", .known (.gates (.waiting {}))⟩,
    ⟨"", 3, 0, some "a", .known (.gates (.waiting {}))⟩,
    ⟨"", 4, 0, some "a", .known (.gates (.resolved .closed))⟩]

/-- The reparked gate is left waiting with no wait open. -/
theorem not_waits_restore : ¬ ∀ node log, Accepted log → WaitsRestore node log := by
  intro h
  have hopen := (h "a" reparkedLog (by decide)).1 reparkedLog [] rfl (by decide)
  revert hopen
  decide

/-! ## A node that ran keeps a state -/

/-- A start or a terminal leaves the node a state. -/
theorem replaced_some {s : RunState} {event : StoredEvent} {node : NodeId}
    (hmove : waitMove node event = .replaces) : ((s.taken event).nodes.state node).isSome := by
  unfold waitMove at hmove
  by_cases hnode : event.nodeId = some node
  · rw [if_pos hnode] at hmove
    cases hp : event.payload with
    | none => simp [hp] at hmove
    | some payload =>
      rw [hp] at hmove
      cases payload with
      | gates e => cases e <;> simp [gateMove] at hmove
      | node e =>
        have hstate : (s.taken event).nodes.state node =
            (((s.nodes.get node).getD {}).onEvent e event.meta_ s.run.suspensions).state := by
          rw [taken_node hp]
          exact (s.nodes.state_apply node e event.meta_ s.run.suspensions).trans
            (if_pos (show event.meta_.node = some node from hnode))
        rw [hstate, NodeRecord.onEvent_state]
        cases e with
        | started p => rfl
        | finished p => rfl
        | failed p => rfl
        | _ => simp [nodeMove] at hmove
      | _ => simp at hmove
  · rw [if_neg hnode] at hmove
    cases hmove

/-- What a node is, held or not, is a state from its first start on. -/
theorem steps_keep_some {s t : RunState} {log : List StoredEvent} (h : RunSteps s log t)
    {node : NodeId} {w : Interrupt (Option NodeState)} (hw : s.Holds node w)
    (hopen : ∀ before event after u, log = before ++ event :: after → RunSteps s before u →
      waitMove node event = .opens → u.isWaiting node = false)
    (hsome : w.kept.isSome ∨ Move.replaces ∈ log.map (waitMove node)) :
    t.nodes.hasState node = true := by
  induction h generalizing w with
  | nil s =>
    have hkept : w.kept.isSome := hsome.resolve_right List.not_mem_nil
    cases w with
    | atRest state =>
      have hstate : s.nodes.state node = state := hw.1
      rw [NodeLedger.hasState, hstate]
      exact hkept
    | held state =>
      have hwait : s.isWaiting node = true := hw.1
      rw [isWaiting] at hwait
      rw [NodeLedger.hasState]
      cases hs : s.nodes.state node with
      | none => simp [hs] at hwait
      | some _ => rfl
  | @cons s u t event rest he hrest ih =>
    obtain ⟨hr, rfl⟩ := apply_ok_iff.mp he
    obtain ⟨v, hstep, hv⟩ := taken_holds hr hw (hopen [] event rest s rfl (.nil s))
    refine ih hv ?_ ?_
    · intro before e after u' hsplit hu
      exact hopen (event :: before) e after u' (by rw [hsplit]; rfl) (.cons he hu)
    · -- a replacement leaves a state, and no other move takes one away
      by_cases hmove : waitMove node event = .replaces
      · rw [hmove] at hstep
        cases hstep with
        | replaces w value =>
          have hvalue : (s.taken event).nodes.state node = value := hv.1
          exact Or.inl (by rw [Interrupt.kept, ← hvalue]; exact replaced_some hmove)
      · rcases hsome with hkept | hmem
        · refine Or.inl ?_
          generalize waitMove node event = m at hstep hmove
          cases hstep with
          | replaces w value => exact absurd rfl hmove
          | _ => exact hkept
        · rcases List.mem_cons.mp hmem with heq | hmem
          · exact absurd heq.symm hmove
          · exact Or.inr hmem

/-- **A node that ever started has a state**, in every accepted log none of whose waits opens on
    the node while it waits. -/
theorem started_hasState {node : NodeId} {log : List StoredEvent} (h : Accepted log)
    (hopen : NeverReparks node log) (hran : Move.replaces ∈ log.map (waitMove node)) :
    (derive log).nodes.hasState node = true := by
  refine steps_keep_some (w := .atRest none) (steps_of_accepted h) ⟨rfl, rfl⟩ ?_ (Or.inr hran)
  intro before event after u hlog hu hopens
  rw [← derive_of_steps hu]
  exact hopen.at_ hlog hopens

end RunState

end Yunta
