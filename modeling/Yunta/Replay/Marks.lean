/-
  The marks a node's record keeps of its attempts and its reroutes, and what one event does to them.

  1. **Marks** — where the log last closed the node, how, and where it last sent the run elsewhere;
     `onFailureReroutes` counts the reroutes the node's own `on_failure` made.

  2. **One event** — `taken_marks`: only the node's own terminals and reroutes move its marks.
     `taken_own` says the same of the resolutions of its gate, and `taken_restsIn` of the state it
     rests in.

  3. **Over a log** — what a record counts is what its log holds (`derive_reroutes`).
-/
import Yunta.Replay.Decisions
import Yunta.Replay.Waits

set_option linter.unusedVariables false

namespace Yunta

/-! ## Marks -/

/-- Where a node's attempts closed, and where its reroutes went. -/
structure Marks where
  lastTerminal : Option Nat := none
  lastFailed : Option Nat := none
  lastFinished : Option Nat := none
  onFailureReroutes : Nat := 0
  lastReroute : Option Reroute := none
  deriving DecidableEq

namespace Marks

/-- What one event of the node's own leaves of its marks. -/
def after (marks : Marks) (event : NodeEvent) (m : EventMeta) : Marks :=
  match event with
  | .finished _ => { marks with lastTerminal := some m.seq, lastFinished := some m.seq }
  | .failed _ => { marks with lastTerminal := some m.seq, lastFailed := some m.seq }
  | .rerouted p =>
    { marks with
      onFailureReroutes :=
        if p.origin = .onFailure then marks.onFailureReroutes + 1 else marks.onFailureReroutes
      lastReroute := some (Reroute.of p m) }
  | _ => marks

end Marks

namespace NodeRecord

/-- The marks of a record. -/
def marks (r : NodeRecord) : Marks :=
  ⟨r.lastTerminal, r.lastFailed, r.lastFinished, r.onFailureReroutes, r.lastReroute⟩

@[simp] theorem closeWorking_marks (r : NodeRecord) (at_ : Int) (asleep : Suspensions) :
    (r.closeWorking at_ asleep).marks = r.marks := by
  unfold closeWorking; split <;> rfl

@[simp] theorem ranOn_marks (r : NodeRecord) (model : Option ModelName) :
    (r.ranOn model).marks = r.marks := by
  unfold ranOn; split <;> [split; skip] <;> rfl

@[simp] theorem settleRound_marks (r : NodeRecord) (asked : TokenUsage) :
    (r.settleRound asked).marks = r.marks := rfl

@[simp] theorem resume_marks (r : NodeRecord) (at_ : Int) : (r.resume at_).marks = r.marks := by
  unfold resume; split <;> rfl

/-- A session moves no mark. -/
@[simp] theorem onSession_marks (r : NodeRecord) (event : SessionEvent) (m : EventMeta) :
    (r.onSession event m).marks = r.marks := by
  cases event with
  | opened p => exact ranOn_marks _ p.model
  | railSummary p =>
    simp only [onSession, heardModel]
    split
    · split
      · exact ranOn_marks _ p.model
      · rfl
    · rfl
  | message p =>
    simp only [onSession, message]
    split
    · rfl
    · split <;> rfl
    · rfl
  | _ => rfl

/-- Closing an attempt marks where it closed, and nothing else. -/
theorem endAttempt_marks (r : NodeRecord) (tokens : TokenUsage) (m : EventMeta)
    (asleep : Suspensions) :
    (r.endAttempt tokens m asleep).marks = { r.marks with lastTerminal := some m.seq } := by
  simp only [endAttempt, closeWorking, marks]
  split <;> rfl

/-- **A node's own event moves its marks** where it closes an attempt or sends the run elsewhere. -/
theorem onEvent_marks (r : NodeRecord) (event : NodeEvent) (m : EventMeta) (asleep : Suspensions) :
    (r.onEvent event m asleep).marks = r.marks.after event m := by
  cases event with
  | finished p =>
    have h := endAttempt_marks { r with lastEventAt := some m.at_ } p.tokensUsed m asleep
    exact congrArg (fun marks => { marks with lastFinished := some m.seq }) h
  | failed p =>
    have h := endAttempt_marks { r with lastEventAt := some m.at_ } p.tokensUsed m asleep
    exact congrArg (fun marks => { marks with lastFailed := some m.seq }) h
  | _ => rfl

end NodeRecord

/-! ## What one event does to a reading of a record -/

/-- A reading of a record that only the node's own events and its rounds of questions move:
    neither a wait, a session nor a close beside it does. -/
structure NodeRecord.Reading {β : Type} (f : NodeRecord → β) : Prop where
  waits : ∀ r state, f { r with state := state } = f r
  beside : ∀ r, f { r with treeMoved := true } = f r
  stops : ∀ r at_ asleep, f (r.closeWorking at_ asleep) = f r
  works : ∀ r at_, f (r.resume at_) = f r
  session : ∀ r event m, f (r.onSession event m) = f r

/-- A reading that only the node's own events move: a round of questions does not either. -/
structure NodeRecord.OwnReading {β : Type} (f : NodeRecord → β) : Prop
    extends NodeRecord.Reading f where
  asks : ∀ r asked, f (r.settleRound asked) = f r

namespace RunState

section
variable {β : Type} {f : NodeRecord → β}

/-- What a gate event leaves of such a reading: only the round of questions it asks moves it. -/
theorem gateTransition_reading (hf : NodeRecord.Reading f) {s : RunState} {e : GateEvent}
    {event : StoredEvent} (hr : s.refuseGate e event = .ok ()) (a : NodeId) :
    f (((s.gateTransition e event).1.nodes.get a).getD {}) =
      match e with
      | .questionsAsked round =>
        if event.nodeId = some a then f (((s.nodes.get a).getD {}).settleRound round.tokensUsed)
        else f ((s.nodes.get a).getD {})
      | _ => f ((s.nodes.get a).getD {}) := by
  have hset (l : NodeLedger) (node : NodeId) (state : Option NodeState) :
      f (((l.setState node state).get a).getD {}) = f ((l.get a).getD {}) := by
    rw [l.get_setState]
    split
    · next he => subst he; exact hf.waits _ state
    · rfl
  have hstop (l : NodeLedger) (node : NodeId) (m : EventMeta) (asleep : Suspensions) :
      f (((l.stopWorking node m asleep).get a).getD {}) = f ((l.get a).getD {}) := by
    rw [l.get_stopWorking]
    split
    · next he => subst he; cases l.get node <;> simp [hf.stops]
    · rfl
  have hresume (l : NodeLedger) (node : NodeId) (at_ : Int) :
      f (((l.resumeWorking node at_).get a).getD {}) = f ((l.get a).getD {}) := by
    rw [l.get_resumeWorking]
    split
    · next he => subst he; cases l.get node <;> simp [hf.works]
    · rfl
  have hunpark (node : NodeId) (at_ : Int) :
      f (((s.unpark node at_).nodes.get a).getD {}) = f ((s.nodes.get a).getD {}) :=
    (hresume _ node at_).trans (hset _ node _)
  unfold gateTransition
  unfold refuseGate at hr
  cases hnode : event.nodeId with
  | none => cases e <;> rfl
  | some node =>
    rw [hnode] at hr
    cases e with
    | waiting p => exact (hstop _ node _ _).trans (hset _ node _)
    | resolved p =>
      show f (((if s.isWaiting node then _ else s : RunState).nodes.get a).getD {}) = _
      split
      · exact hunpark node _
      · rfl
    | questionsAsked round =>
      cases hasked : round.questions with
      | nil =>
        -- the check refused a round with no question
        simp only [hasked, List.isEmpty_nil, if_true] at hr
        split at hr <;> cases hr
      | cons first rest =>
        simp only [questionsAsked, hasked]
        refine (hset _ node _).trans ?_
        show f (((s.nodes.settleAsking node _ _ _).get a).getD {}) =
          if some node = some a then _ else _
        rw [s.nodes.get_settleAsking]
        by_cases he : node = a
        · subst he
          rw [if_pos rfl, if_pos rfl]
          exact hf.stops _ _ _
        · rw [if_neg he, if_neg fun h => he (Option.some.inj h)]
    | questionsAnswered p => exact hunpark node _
    | askingOpened => exact hstop _ node _ _

/-- **Only a node's own events and its rounds of questions move such a reading.** -/
theorem taken_readingAsked (hf : NodeRecord.Reading f) {s : RunState} {event : StoredEvent}
    (hr : s.refuse event = .ok ()) (node : NodeId) :
    f (((s.taken event).nodes.get node).getD {}) =
      match event.payload with
      | some (.node e) =>
        if event.nodeId = some node then
          f (((s.nodes.get node).getD {}).onEvent e event.meta_ s.run.suspensions)
        else f ((s.nodes.get node).getD {})
      | some (.gates (.questionsAsked round)) =>
        if event.nodeId = some node then
          f (((s.nodes.get node).getD {}).settleRound round.tokensUsed)
        else f ((s.nodes.get node).getD {})
      | _ => f ((s.nodes.get node).getD {}) := by
  cases hp : event.payload with
  | none => rw [taken_unknown hp]; rfl
  | some payload =>
    cases payload with
    | run e => rw [taken_run hp]; rfl
    | node e =>
      rw [taken_node hp]
      show f (((s.nodes.apply e event.meta_ s.run.suspensions).get node).getD {}) =
        if event.nodeId = some node then _ else f ((s.nodes.get node).getD {})
      by_cases hm : event.nodeId = some node
      · rw [if_pos hm, s.nodes.apply_get node hm]
        rfl
      · rw [if_neg hm]
        rcases s.nodes.apply_get_other node e (m := event.meta_) hm s.run.suspensions with
          h | ⟨r, hget, h⟩
        · rw [h]
        · rw [h, hget]
          exact hf.beside r
    | session e =>
      rw [taken_session hr hp]
      show f (((s.nodes.applySession e event.meta_).1.get node).getD {}) = _
      rw [s.nodes.applySession_get]
      split
      · exact hf.session _ e event.meta_
      · rfl
    | tasks e => rw [taken_task hr hp]; rfl
    | scope e => rw [taken_scope hr hp]; rfl
    | findings e => rw [taken_finding hp]; rfl
    | artifacts e => rw [taken_artifact hp]; rfl
    | gates e =>
      rw [taken_gate hr hp]
      rw [refuse, hp] at hr
      refine (gateTransition_reading hf hr node).trans ?_
      cases e <;> rfl
    | children e => rw [taken_child hp]; rfl

/-- **Only a node's own events move what they alone can move.** -/
theorem taken_reading (hf : NodeRecord.OwnReading f) {s : RunState} {event : StoredEvent}
    (hr : s.refuse event = .ok ()) (node : NodeId) :
    f (((s.taken event).nodes.get node).getD {}) =
      match event.payload with
      | some (.node e) =>
        if event.nodeId = some node then
          f (((s.nodes.get node).getD {}).onEvent e event.meta_ s.run.suspensions)
        else f ((s.nodes.get node).getD {})
      | _ => f ((s.nodes.get node).getD {}) := by
  rw [taken_readingAsked hf.toReading hr node]
  cases event.payload with
  | none => rfl
  | some payload =>
    cases payload with
    | gates e =>
      cases e with
      | questionsAsked round =>
        show (if event.nodeId = some node then _ else _) = _
        rw [hf.asks, ite_self]
      | _ => rfl
    | _ => rfl

end

end RunState

/-! ## What one event does to the marks -/

theorem NodeRecord.ownReading_marks : NodeRecord.OwnReading NodeRecord.marks where
  waits _ _ := rfl
  beside _ := rfl
  stops := closeWorking_marks
  works := resume_marks
  asks := settleRound_marks
  session := onSession_marks

namespace RunState

/-- The marks the state holds of a node. -/
def marks (s : RunState) (node : NodeId) : Marks := ((s.nodes.get node).getD {}).marks

/-- **Only a node's own terminals and reroutes move its marks.** -/
theorem taken_marks {s : RunState} {event : StoredEvent} (hr : s.refuse event = .ok ())
    (node : NodeId) :
    (s.taken event).marks node =
      match event.payload with
      | some (.node e) =>
        if event.nodeId = some node then (s.marks node).after e event.meta_ else s.marks node
      | _ => s.marks node := by
  have hreading := taken_reading NodeRecord.ownReading_marks hr node
  simp only [NodeRecord.onEvent_marks] at hreading
  exact hreading

/-- An event is the node's own, and moves its marks as such, or it leaves them alone. -/
theorem taken_marks_cases {s : RunState} {event : StoredEvent} (hr : s.refuse event = .ok ())
    (node : NodeId) :
    (∃ e, event.payload = some (.node e) ∧ event.nodeId = some node ∧
      (s.taken event).marks node = (s.marks node).after e event.meta_) ∨
    (∀ e, event.payload = some (.node e) → event.nodeId ≠ some node) ∧
      (s.taken event).marks node = s.marks node := by
  have hmarks := taken_marks hr node
  split at hmarks
  · next e hp =>
    split at hmarks
    · next hnode => exact Or.inl ⟨e, hp, hnode, hmarks⟩
    · next hnode => exact Or.inr ⟨fun _ _ => hnode, hmarks⟩
  · next hother => exact Or.inr ⟨fun e hp => absurd hp (hother e), hmarks⟩

end RunState

/-! ## What one event does to a gate's resolutions -/

namespace GateRecord

/-- An answer about a task takes none of the resolutions before it for a task's. -/
theorem own_insert (r : GateRecord) {seq : Nat} (hbelow : ∀ resolution ∈ r.resolved, resolution.2 < seq) :
    (r.resolved.filter fun x => !(r.taskAnswers.insert seq).contains x.2) = r.ownResolutions := by
  refine List.filter_congr fun x hmem => ?_
  have hne : compare seq x.2 ≠ .eq :=
    fun heq => Nat.ne_of_gt (hbelow x hmem) (Std.LawfulEqCmp.eq_of_compare heq)
  simp [Std.ExtTreeSet.contains_insert, hne]

/-- One gate event adds at most its own resolution, past the ones before it. -/
theorem apply_own (r : GateRecord) (e : GateEvent) {seq : Nat}
    (hbelow : ∀ resolution ∈ r.resolved, resolution.2 < seq) :
    (r.apply e seq).ownResolutions = r.ownResolutions ∨
      ∃ p, e = .resolved p ∧ (r.apply e seq).ownResolutions = r.ownResolutions ++ [(p, seq)] := by
  cases e with
  | resolved p =>
    cases htask : r.waiting.any fun asked => asked.1.menu.any Menu.answersATask with
    | true =>
      -- an answer about a task is no resolution of the node's own
      left
      simp only [GateRecord.apply, htask, ownResolutions, if_true, List.filter_append]
      rw [r.own_insert hbelow]
      simp [ownResolutions]
    | false =>
      simp only [GateRecord.apply, htask, ownResolutions, Bool.false_eq_true, if_false,
        List.filter_append]
      cases hseq : r.taskAnswers.contains seq with
      | true => exact Or.inl (by simp [hseq])
      | false => exact Or.inr ⟨p, rfl, by simp [hseq]⟩
  | _ => exact Or.inl rfl

end GateRecord

namespace GateLedger

theorem track_perNode (l : GateLedger) (e : GateEvent) (m : EventMeta) :
    (l.track e m).perNode = l.perNode := by
  cases e with
  | waiting p => show (if _ then _ else l : GateLedger).perNode = _; split <;> rfl
  | _ => rfl

/-- **A gate event** rewrites the record of the node its envelope names, and no other. -/
theorem apply_get (l : GateLedger) (node : NodeId) (e : GateEvent) (m : EventMeta) :
    (l.apply e m).get node = l.get node ∨
      m.node = some node ∧
        (l.apply e m).get node = some (((l.get node).getD {}).apply e m.seq) := by
  have hsame : (l.track e m).get node = l.get node := by
    rw [GateLedger.get, track_perNode]
    rfl
  unfold apply
  cases hm : m.node with
  | none => left; cases e <;> exact hsame
  | some named =>
    have hwrites : (OrdMap.upsert (l.track e m).perNode named {}
        (fun r => r.apply e m.seq))[node]? =
          if named = node then some (((l.get named).getD {}).apply e m.seq) else l.get node := by
      rw [track_perNode]
      exact OrdMap.getElem?_upsert ..
    by_cases hnode : named = node
    · subst hnode
      rw [if_pos rfl] at hwrites
      cases e with
      | askingOpened => exact Or.inl hsame
      | _ => exact Or.inr ⟨rfl, hwrites⟩
    · rw [if_neg hnode] at hwrites
      left
      cases e with
      | askingOpened => exact hsame
      | _ => exact hwrites

end GateLedger

namespace RunState

/-- The resolutions of a node's gate that answered no question about one of its tasks. -/
def own (s : RunState) (node : NodeId) : List (GateResolvedPayload × Nat) :=
  ((s.gates.get node).map (·.ownResolutions)).getD []

/-- Whether the state a node is in, or the one its wait interrupted, is a failure. -/
def failedUnder (s : RunState) (node : NodeId) : Bool :=
  (s.nodes.state node).any NodeState.isFailed ||
    (s.isWaiting node && ((s.preGate[node]?).join).any NodeState.isFailed)

/-- What a node's gate was resolved with. -/
def resolutions (s : RunState) (node : NodeId) : List (GateResolvedPayload × Nat) :=
  ((s.gates.get node).map (·.resolved)).getD []

/-- Whether the state a node is in, or the one its wait interrupted, is one of `p`'s. -/
def restsIn (s : RunState) (p : NodeState → Bool) (node : NodeId) : Bool :=
  (s.nodes.state node).any p || (s.isWaiting node && ((s.preGate[node]?).join).any p)

/-- The state an event of the node's own puts it in: it opens or closes an attempt. -/
def putIn (s : RunState) (node : NodeId) (event : NodeEvent) : Option NodeState :=
  let settled := ((s.nodes.get node).getD {}).attemptSettled
  match event with
  | .started p => some (.running p.attempt)
  | .finished p => some (.finished p.outcome (settled + p.tokensUsed))
  | .failed p => some (.failed p.failure (settled + p.tokensUsed))
  | _ => none

section
variable {p : NodeState → Bool} (hwait : ∀ on, p (.waiting on) = false)

include hwait in
/-- A node whose wait begins keeps the state it was in. -/
theorem restsIn_parked {s t : RunState} {node : NodeId} {on : NodeWait}
    (hstate : t.nodes.state node = some (.waiting on))
    (hslot : t.preGate[node]? = some (s.nodes.state node)) (h : t.restsIn p node = true) :
    s.restsIn p node = true := by
  rw [restsIn, isWaiting, hstate, hslot, Option.any_some, hwait, Bool.false_or] at h
  rw [restsIn, Bool.or_eq_true]
  exact Or.inl h

/-- A node whose wait ends is given back the state that was kept. -/
theorem restsIn_unparked {s t : RunState} {node : NodeId} (hw : s.isWaiting node = true)
    (hstate : t.nodes.state node = (s.preGate[node]?).join) (hslot : t.preGate[node]? = none)
    (h : t.restsIn p node = true) : s.restsIn p node = true := by
  rw [restsIn, hstate, hslot] at h
  rw [restsIn, hw, Bool.true_and, Bool.or_eq_true]
  right
  simpa using h

/-- A node that keeps its state and its slot keeps what it rests in. -/
theorem restsIn_congr {s t : RunState} {node : NodeId}
    (hstate : t.nodes.state node = s.nodes.state node)
    (hslot : t.preGate[node]? = s.preGate[node]?) (h : t.restsIn p node = true) :
    s.restsIn p node = true := by
  rw [restsIn, isWaiting, hstate, hslot] at h
  exact h

include hwait in
/-- A gate event rests no node in a state it was not in before, waiting or not. -/
theorem gateTransition_restsIn {s : RunState} {e : GateEvent} {event : StoredEvent}
    {node : NodeId} (hr : s.refuseGate e event = .ok ())
    (h : (s.gateTransition e event).1.restsIn p node = true) : s.restsIn p node = true := by
  by_cases hnode : event.nodeId = some node
  · generalize ht : (s.gateTransition e event).1 = t at h
    unfold gateTransition at ht
    unfold refuseGate at hr
    rw [hnode] at hr ht
    cases e with
    | waiting payload =>
      have hstate : t.nodes.state node = some (.waiting (.gate payload.externalRef)) := by
        rw [← ht]
        refine ((s.park node _).nodes.state_stopWorking node node _ _).trans ?_
        rw [park_state, if_pos rfl]
      have hslot : t.preGate[node]? = some (s.nodes.state node) := by
        rw [← ht]
        exact (s.park_preGate node node (.gate payload.externalRef)).trans (if_pos rfl)
      exact restsIn_parked hwait hstate hslot h
    | resolved payload =>
      dsimp only at ht
      cases hw : s.isWaiting node with
      | true =>
        rw [hw, if_pos rfl] at ht
        have hstate : t.nodes.state node = (s.preGate[node]?).join := by
          rw [← ht, unpark_state, if_pos rfl]
        have hslot : t.preGate[node]? = none := by rw [← ht, unpark_preGate, if_pos rfl]
        exact restsIn_unparked hw hstate hslot h
      | false =>
        rw [hw, if_neg Bool.false_ne_true] at ht
        rwa [← ht] at h
    | questionsAsked round =>
      dsimp only at ht
      unfold questionsAsked at ht
      cases hasked : round.questions with
      | nil =>
        rw [hasked] at ht
        rwa [← ht] at h
      | cons first rest =>
        rw [hasked] at ht
        have hstate : t.nodes.state node = some (.waiting (.questions (first :: rest))) := by
          rw [← ht]
          exact (park_state _ node node _).trans (if_pos rfl)
        have hslot : t.preGate[node]? = some (s.nodes.state node) := by
          rw [← ht]
          refine (park_preGate _ node node (.questions (first :: rest))).trans ((if_pos rfl).trans ?_)
          exact congrArg some (s.nodes.state_settleAsking node node _ _ _)
        exact restsIn_parked hwait hstate hslot h
    | questionsAnswered payload =>
      dsimp only at hr ht
      have hw : s.isWaiting node = true := by
        by_contra hw
        rw [if_neg hw] at hr
        cases hr
      have hstate : t.nodes.state node = (s.preGate[node]?).join := by
        rw [← ht, unpark_state, if_pos rfl]
      have hslot : t.preGate[node]? = none := by rw [← ht, unpark_preGate, if_pos rfl]
      exact restsIn_unparked hw hstate hslot h
    | askingOpened =>
      have hstate : t.nodes.state node = s.nodes.state node := by
        rw [← ht]
        exact s.nodes.state_stopWorking node node _ _
      have hslot : t.preGate[node]? = s.preGate[node]? := by rw [← ht]
      exact restsIn_congr hstate hslot h
  · have hother := gateTransition_other s e hnode
    exact restsIn_congr hother.1 hother.2 h

end

section
variable {s : RunState} {event : StoredEvent} (hr : s.refuse event = .ok ()) (node : NodeId)
include hr

/-- **Only the gate events of a node move its gate's record.** -/
theorem taken_gateRecord :
    (s.taken event).gates.get node = s.gates.get node ∨
      ∃ e, event.payload = some (.gates e) ∧ event.nodeId = some node ∧
        (s.taken event).gates.get node =
          some (((s.gates.get node).getD {}).apply e event.seq) := by
  cases hp : event.payload with
  | none => rw [taken_unknown hp]; exact Or.inl rfl
  | some payload =>
    cases payload with
    | run e =>
      rw [taken_run hp]
      left
      show (if endsAsking e then s.gates.clearAsking else s.gates).get node = _
      split <;> rfl
    | node e => rw [taken_node hp]; exact Or.inl rfl
    | session e => rw [taken_session hr hp]; exact Or.inl rfl
    | tasks e => rw [taken_task hr hp]; exact Or.inl rfl
    | scope e => rw [taken_scope hr hp]; exact Or.inl rfl
    | findings e => rw [taken_finding hp]; exact Or.inl rfl
    | artifacts e => rw [taken_artifact hp]; exact Or.inl rfl
    | gates e =>
      rw [taken_gate hr hp]
      rcases s.gates.apply_get node e event.meta_ with h | ⟨hnode, h⟩
      · exact Or.inl h
      · exact Or.inr ⟨e, rfl, hnode, h⟩
    | children e => rw [taken_child hp]; exact Or.inl rfl

/-- What the log leaves of a gate's resolutions: one more at most, where it was resolved. -/
theorem taken_resolutions :
    (s.taken event).resolutions node = s.resolutions node ∨
      ∃ p, event.payload = some (.gates (.resolved p)) ∧ event.nodeId = some node ∧
        (s.taken event).resolutions node = s.resolutions node ++ [(p, event.seq)] := by
  rcases taken_gateRecord hr node with h | ⟨e, hp, hnode, h⟩
  · exact Or.inl (by rw [resolutions, h, resolutions])
  · have hbefore : ((s.gates.get node).getD {}).resolved = s.resolutions node := by
      unfold resolutions
      cases s.gates.get node <;> rfl
    unfold resolutions at hbefore ⊢
    rw [h]
    cases e with
    | resolved p => exact Or.inr ⟨p, hp, hnode, congrArg (· ++ [(p, event.seq)]) hbefore⟩
    | _ => exact Or.inl hbefore

/-- **A gate's own resolutions grow one at a time**, by a resolution of the node's. -/
theorem taken_own (hbelow : ∀ resolution ∈ s.resolutions node, resolution.2 < event.seq) :
    (s.taken event).own node = s.own node ∨
      ∃ p, event.payload = some (.gates (.resolved p)) ∧ event.nodeId = some node ∧
        (s.taken event).own node = s.own node ++ [(p, event.seq)] := by
  rcases taken_gateRecord hr node with h | ⟨e, hp, hnode, h⟩
  · exact Or.inl (by rw [own, h, own])
  · have hbefore : ((s.gates.get node).getD {}).ownResolutions = s.own node := by
      unfold own
      cases s.gates.get node <;> rfl
    have hresolved : ((s.gates.get node).getD {}).resolved = s.resolutions node := by
      unfold resolutions
      cases s.gates.get node <;> rfl
    rw [own, h, ← hbefore]
    rcases ((s.gates.get node).getD {}).apply_own e (hresolved ▸ hbelow) with hown | ⟨p, rfl, hown⟩
    · exact Or.inl hown
    · exact Or.inr ⟨p, hp, hnode, hown⟩

/-- **A node comes to rest in a state by the event of its own that puts it there**, or by the end of
    a wait the state was kept under. -/
theorem taken_restsIn {p : NodeState → Bool} (hwait : ∀ on, p (.waiting on) = false)
    (h : (s.taken event).restsIn p node = true) :
    (s.restsIn p node = true ∧ ∀ e, event.nodeId = some node → event.payload = some (.node e) →
      s.putIn node e = none) ∨
    event.nodeId = some node ∧
      ∃ e state, event.payload = some (.node e) ∧ s.putIn node e = some state ∧ p state = true := by
  rcases hp : event.payload with _ | payload
  · have hstill := taken_still hr (by simp [hp]) (by simp [hp]) node
    exact Or.inl ⟨restsIn_congr hstill.1 (by rw [hstill.2]) h, by simp⟩
  cases payload with
  | node e =>
    have hslot : (s.taken event).preGate[node]? = s.preGate[node]? := by
      rw [taken_node hp]
      rfl
    have hstate : (s.taken event).nodes.state node = _ :=
      (congrArg (fun t : RunState => t.nodes.state node) (taken_node hp)).trans
        (s.nodes.state_apply node e event.meta_ s.run.suspensions)
    by_cases hm : event.nodeId = some node
    · rw [if_pos (show event.meta_.node = some node from hm), NodeRecord.onEvent_state] at hstate
      have hput {state : NodeState} (hstate : (s.taken event).nodes.state node = some state)
          (hrest : state.isWaiting = false) : p state = true := by
        rw [restsIn, isWaiting, hstate, Option.any_some, Option.any_some, hrest, Bool.false_and,
          Bool.or_false] at h
        exact h
      cases e with
      | started opening => exact Or.inr ⟨hm, _, _, rfl, rfl, hput hstate rfl⟩
      | finished closing => exact Or.inr ⟨hm, _, _, rfl, rfl, hput hstate rfl⟩
      | failed closing => exact Or.inr ⟨hm, _, _, rfl, rfl, hput hstate rfl⟩
      | _ =>
        have hkept : (s.taken event).nodes.state node = s.nodes.state node := by
          rw [hstate, NodeLedger.state]
          cases s.nodes.get node <;> rfl
        refine Or.inl ⟨restsIn_congr hkept hslot h, ?_⟩
        rintro e - he
        cases he
        rfl
    · rw [if_neg (show event.meta_.node ≠ some node from hm)] at hstate
      exact Or.inl ⟨restsIn_congr hstate hslot h, fun _ hm' => absurd hm' hm⟩
  | gates e =>
    rw [taken_gate hr hp] at h
    rw [refuse, hp] at hr
    exact Or.inl ⟨gateTransition_restsIn hwait hr h, by simp⟩
  | _ =>
    have hstill := taken_still hr (by simp [hp]) (by simp [hp]) node
    exact Or.inl ⟨restsIn_congr hstill.1 (by rw [hstill.2]) h, by simp⟩

/-- **A node comes to rest in a failure by failing**, or by the end of a wait its failure was kept
    under. -/
theorem taken_failedUnder (h : (s.taken event).failedUnder node = true) :
    s.failedUnder node = true ∨
      event.nodeId = some node ∧ ∃ p, event.payload = some (.node (.failed p)) := by
  rcases taken_restsIn hr node (p := NodeState.isFailed) (fun _ => rfl) h with
    ⟨hbefore, -⟩ | ⟨hnode, e, state, hp, hput, hfailed⟩
  · exact Or.inl hbefore
  · cases e with
    | failed p => exact Or.inr ⟨hnode, p, hp⟩
    | started p =>
      obtain rfl := Option.some.inj hput
      cases hfailed
    | finished p =>
      obtain rfl := Option.some.inj hput
      cases hfailed
    | _ => cases hput

end

end RunState

end Yunta
