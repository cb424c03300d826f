/-
  A node's tokens are counted once.

  1. **What an event spends** — a round of questions and a terminal each carry the tokens they
     settle; a message's usage is in flight until one of them settles it.

  2. **Counters** — `Counters` is what a record counts of its node's settled tokens, and
     `taken_counters` what one event does to them.  A start and a terminal both empty the attempt's
     own counter.

  3. **A state's tokens** — `derive_settled`: the nodes' sum moves by what each node's own counters
     do, so a state has settled what the events of its log settle.

  4. **Main result** — `tokens_counted_once`: what a node settled is the sum of what its rounds and
     its terminals carried, and a closed state's tokens are those of its attempt.  The crux is that
     a running node's attempt is open, even where the run comes back to it after a wait, so nothing
     closed it since its start.
-/
import Mathlib.Data.List.DropRight
import Yunta.Replay.Lifecycle
import Yunta.Replay.Marks

set_option linter.unusedVariables false

namespace Yunta

/-! ## What an event spends -/

section
variable (node : NodeId) (event : StoredEvent)

/-- The tokens of a round of questions `node` asked. -/
def askedBy : TokenUsage :=
  match event.payload with
  | some (.gates (.questionsAsked p)) => if event.nodeId = some node then p.tokensUsed else 0
  | _ => 0

/-- The tokens of a terminal of `node`. -/
def closedBy : TokenUsage :=
  match event.payload with
  | some (.node (.finished p)) => if event.nodeId = some node then p.tokensUsed else 0
  | some (.node (.failed p)) => if event.nodeId = some node then p.tokensUsed else 0
  | _ => 0

/-- What the event settles of `node`. -/
def carriedBy : TokenUsage := askedBy node event + closedBy node event

/-- Whether the event opens an attempt of `node`. -/
def opens : Bool :=
  match event.payload with
  | some (.node (.started _)) => event.nodeId = some node
  | _ => false

/-- Whether the event closes an attempt of `node`. -/
def closes : Bool :=
  match event.payload with
  | some (.node e) => e.isTerminal && event.nodeId = some node
  | _ => false

end

/-- What the log holds of the attempt of `node` under way, or of its last: the events after its
    latest start. -/
def attempt (node : NodeId) (log : List StoredEvent) : List StoredEvent :=
  log.rtakeWhile fun event => !opens node event

theorem attempt_concat (node : NodeId) (log : List StoredEvent) (event : StoredEvent) :
    attempt node (log ++ [event]) = if opens node event then [] else attempt node log ++ [event] := by
  unfold attempt
  rw [List.rtakeWhile_concat]
  cases opens node event <;> rfl

/-- The tokens a closed state carries. -/
def NodeState.tokens : NodeState → Option TokenUsage
  | .finished _ tokens | .failed _ tokens => some tokens
  | _ => none

/-! ## Counters -/

/-- What a record counts of its node's settled tokens. -/
structure Counters where
  settled : TokenUsage := 0
  attemptSettled : TokenUsage := 0
  isOpen : Bool := false

/-- What one event leaves of a node's counters. -/
def Counters.after (c : Counters) (node : NodeId) (event : StoredEvent) : Counters where
  settled := c.settled + carriedBy node event
  attemptSettled :=
    if opens node event || closes node event then 0 else c.attemptSettled + askedBy node event
  isOpen := opens node event || (c.isOpen && !closes node event)

namespace NodeRecord

/-- The counters of a record. -/
def counters (r : NodeRecord) : Counters := ⟨r.spend.settled, r.attemptSettled, r.openSince.isSome⟩

theorem ranOn_counters (r : NodeRecord) (model : Option ModelName) :
    (r.ranOn model).counters = r.counters := by
  unfold ranOn; split <;> [split; skip] <;> rfl

/-- A session settles nothing: what it reports is in flight. -/
theorem onSession_counters (r : NodeRecord) (event : SessionEvent) (m : EventMeta) :
    (r.onSession event m).counters = r.counters := by
  cases event with
  | opened p => exact ranOn_counters _ p.model
  | railSummary p =>
    simp only [onSession, heardModel]
    split
    · split
      · exact ranOn_counters _ p.model
      · rfl
    · rfl
  | message p =>
    simp only [onSession, message]
    split
    · rfl
    · split <;> rfl
    · rfl
  | _ => rfl

theorem reading_counters : Reading counters where
  waits _ _ := rfl
  beside _ := rfl
  stops r at_ asleep := by unfold closeWorking; split <;> rfl
  works r at_ := by unfold resume; split <;> rfl
  session := onSession_counters

/-- A terminal settles its tokens, and leaves nothing in flight. -/
theorem endAttempt_counters (r : NodeRecord) (tokens : TokenUsage) (m : EventMeta)
    (asleep : Suspensions) :
    (r.endAttempt tokens m asleep).counters = ⟨r.spend.settled + tokens, 0, false⟩ ∧
      (r.endAttempt tokens m asleep).spend.inFlight = 0 := by
  simp only [endAttempt, closeWorking, counters]
  split <;> exact ⟨rfl, rfl⟩

end NodeRecord

namespace RunState

/-- The counters the state holds of a node. -/
def counters (s : RunState) (node : NodeId) : Counters := ((s.nodes.get node).getD {}).counters

/-- **One event counts what it carries, once.** -/
theorem taken_counters {s : RunState} {event : StoredEvent} (hr : s.refuse event = .ok ())
    (node : NodeId) : (s.taken event).counters node = (s.counters node).after node event := by
  have hquiet (c : Counters) (h : askedBy node event = 0 ∧ closedBy node event = 0 ∧
      opens node event = false ∧ closes node event = false) : c = c.after node event := by
    simp [Counters.after, carriedBy, h.1, h.2.1, h.2.2.1, h.2.2.2]
  rw [counters, taken_readingAsked NodeRecord.reading_counters hr node]
  show _ = (((s.nodes.get node).getD {}).counters).after node event
  generalize (s.nodes.get node).getD {} = r
  cases hp : event.payload with
  | none => exact hquiet _ (by simp [askedBy, closedBy, opens, closes, hp])
  | some payload =>
    cases payload with
    | node e =>
      by_cases hnode : event.nodeId = some node
      · refine (if_pos hnode).trans ?_
        cases e with
        | started p =>
          simp [Counters.after, carriedBy, askedBy, closedBy, opens, closes, hp, hnode,
            NodeRecord.counters, NodeRecord.onEvent, NodeRecord.started]
          rfl
        | finished p =>
          have hend := (NodeRecord.endAttempt_counters { r with lastEventAt := some event.meta_.at_ }
            p.tokensUsed event.meta_ s.run.suspensions).1
          refine hend.trans ?_
          simp [Counters.after, carriedBy, askedBy, closedBy, opens, closes, hp, hnode,
            NodeRecord.counters, NodeEvent.isTerminal]
        | failed p =>
          have hend := (NodeRecord.endAttempt_counters { r with lastEventAt := some event.meta_.at_ }
            p.tokensUsed event.meta_ s.run.suspensions).1
          refine hend.trans ?_
          simp [Counters.after, carriedBy, askedBy, closedBy, opens, closes, hp, hnode,
            NodeRecord.counters, NodeEvent.isTerminal]
        | _ => exact hquiet _ (by simp [askedBy, closedBy, opens, closes, hp, NodeEvent.isTerminal])
      · refine (if_neg hnode).trans (hquiet _ ?_)
        cases e <;> simp [askedBy, closedBy, opens, closes, hp, hnode]
    | gates e =>
      cases e with
      | questionsAsked p =>
        by_cases hnode : event.nodeId = some node
        · refine (if_pos hnode).trans ?_
          simp [Counters.after, carriedBy, askedBy, closedBy, opens, closes, hp, hnode,
            NodeRecord.counters, NodeRecord.settleRound]
        · refine (if_neg hnode).trans (hquiet _ ?_)
          simp [askedBy, closedBy, opens, closes, hp, hnode]
      | _ => exact hquiet _ (by simp [askedBy, closedBy, opens, closes, hp])
    | _ => exact hquiet _ (by simp [askedBy, closedBy, opens, closes, hp])

end RunState

/-! ## What a state settled -/

/-- The tokens a child run closed on. -/
def childSpent (event : StoredEvent) : TokenUsage :=
  match event.payload with
  | some (.children (.finished p)) => p.tokens
  | _ => 0

/-- What an event settles: a round or a terminal of its node, or a child run. -/
def settledBy (event : StoredEvent) : TokenUsage :=
  (event.nodeId.map fun node => carriedBy node event).getD 0 + childSpent event

/-- An event settles nothing of a node it is not written under. -/
theorem settles_own {node : NodeId} {event : StoredEvent} (h : event.nodeId ≠ some node) :
    carriedBy node event = 0 := by
  have hasked : askedBy node event = 0 := by
    unfold askedBy; split <;> [exact if_neg h; rfl]
  have hclosed : closedBy node event = 0 := by
    unfold closedBy; split <;> [exact if_neg h; exact if_neg h; rfl]
  rw [carriedBy, hasked, hclosed, add_zero]

namespace RunState

/-- Everything the log has settled: every node's closed work, and every closed child run. -/
def settled (s : RunState) : TokenUsage :=
  OrdMap.sumBy (fun r : NodeRecord => r.spend.settled) s.nodes.perNode + s.children.tokens

theorem counters_settled (s : RunState) (node : NodeId) :
    (s.counters node).settled = (s.nodes.perNode[node]?.map (·.spend.settled)).getD 0 := by
  unfold counters NodeLedger.get
  cases s.nodes.perNode[node]? <;> rfl

/-- **One event adds what it settles.** -/
theorem taken_settled {s : RunState} {event : StoredEvent} (hr : s.refuse event = .ok ()) :
    (s.taken event).settled = s.settled + settledBy event := by
  let keys : Finset NodeId := (s.nodes.perNode.keys ++ (s.taken event).nodes.perNode.keys ++
    event.nodeId.toList).toFinset
  have hkeys (m : OrdMap NodeId NodeRecord) (hm : ∀ k ∈ m.keys, k ∈ keys) (k : NodeId)
      (r : NodeRecord) (hk : m[k]? = some r) : k ∈ keys :=
    hm k (Std.ExtTreeMap.mem_keys.mpr
      (Std.ExtTreeMap.isSome_getElem?_iff_mem.mp (by rw [hk]; rfl)))
  have hnodes : OrdMap.sumBy (fun r : NodeRecord => r.spend.settled) (s.taken event).nodes.perNode =
      OrdMap.sumBy (fun r : NodeRecord => r.spend.settled) s.nodes.perNode +
        (event.nodeId.map fun node => carriedBy node event).getD 0 := by
    rw [OrdMap.sumBy_eq_sum _ _ (hkeys _ fun k hk => by simp [keys, hk]),
      OrdMap.sumBy_eq_sum _ _ (hkeys s.nodes.perNode fun k hk => by simp [keys, hk])]
    simp only [← counters_settled, taken_counters hr, Counters.after, Finset.sum_add_distrib]
    congr 1
    -- of the keys, only the event's own node is one it settles anything of
    cases hnode : event.nodeId with
    | none => exact Finset.sum_eq_zero fun node _ => settles_own (by simp [hnode])
    | some own =>
      refine Finset.sum_eq_single_of_mem own (by simp [keys, hnode]) fun node _ hne => ?_
      exact settles_own (by simp [hnode, hne.symm])
  have hchildren : (s.taken event).children.tokens = s.children.tokens + childSpent event := by
    unfold childSpent
    cases hp : event.payload with
    | none => rw [taken_unknown hp]; exact (add_zero _).symm
    | some payload =>
      cases payload with
      | run e => rw [taken_run hp]; exact (add_zero _).symm
      | node e => rw [taken_node hp]; exact (add_zero _).symm
      | session e => rw [taken_session hr hp]; exact (add_zero _).symm
      | tasks e => rw [taken_task hr hp]; exact (add_zero _).symm
      | scope e => rw [taken_scope hr hp]; exact (add_zero _).symm
      | findings e => rw [taken_finding hp]; exact (add_zero _).symm
      | artifacts e => rw [taken_artifact hp]; exact (add_zero _).symm
      | gates e => rw [taken_gate hr hp]; exact (add_zero _).symm
      | children e =>
        rw [taken_child hp]
        cases e with
        | finished p => rfl
        | _ => exact (add_zero _).symm
  unfold settled settledBy
  rw [hnodes, hchildren]
  exact add_add_add_comm _ _ _ _

/-- **A state has settled what its log settles.** -/
theorem derive_settled {log : List StoredEvent} (h : Accepted log) :
    (derive log).settled = (log.map settledBy).sum := by
  induction log using List.reverseRecOn with
  | nil => rfl
  | append_singleton log event ih =>
    obtain ⟨hr, hderive⟩ := derive_snoc h
    rw [hderive, taken_settled hr, ih (accepted_of_append h), List.map_append, List.sum_append,
      List.map_singleton, List.sum_singleton]

end RunState

/-! ## Every log -/

namespace RunState

/-- What the log says a node spent, and what the state counts of it. -/
structure Counted (node : NodeId) (log : List StoredEvent) (s : RunState) : Prop where
  settled : (s.counters node).settled = (log.map (carriedBy node)).sum
  opened : (s.counters node).isOpen = true →
    (s.counters node).attemptSettled = ((attempt node log).map (askedBy node)).sum ∧
      ∀ event ∈ attempt node log, closes node event = false
  running : s.restsIn NodeState.isRunning node = true → (s.counters node).isOpen = true
  closed : ∀ tokens, s.restsIn (fun state => state.tokens = some tokens) node = true →
    tokens = ((attempt node log).map (askedBy node)).sum +
      ((attempt node log).map (closedBy node)).sum

section
variable {node : NodeId} {log : List StoredEvent} {s : RunState} {event : StoredEvent}

/-- What closes an attempt of a node, and a round of questions it asks, both come while it runs. -/
theorem isRunning_of_spends (hr : s.refuse event = .ok ())
    (hspends : closes node event = true ∨ askedBy node event ≠ 0) : s.isRunning node = true := by
  unfold refuse at hr
  unfold closes askedBy at hspends
  cases hp : event.payload with
  | none => simp [hp] at hspends
  | some payload =>
    rw [hp] at hr hspends
    cases payload with
    | node e =>
      have hclose : e.isTerminal = true ∧ event.nodeId = some node := by simpa using hspends
      cases e with
      | finished p =>
        simp only [refuseNode, requireNodeId, hclose.2] at hr
        split at hr
        · assumption
        · cases hr
      | failed p =>
        simp only [refuseNode, requireNodeId, hclose.2] at hr
        split at hr
        · assumption
        · cases hr
      | _ => cases hclose.1
    | gates e =>
      cases e with
      | questionsAsked p =>
        have hnode : event.nodeId = some node := by
          by_contra hnode
          simp [hnode] at hspends
        simp only [refuseGate, hnode] at hr
        split at hr
        · cases hr
        · next hrunning => simpa using hrunning
      | _ => simp at hspends
    | _ => simp at hspends

/-- An event that puts the node in no state of its own neither opens nor closes an attempt. -/
theorem opens_of_putIn (hput : ∀ e, event.nodeId = some node → event.payload = some (.node e) →
    s.putIn node e = none) :
    opens node event = false ∧ closes node event = false ∧ closedBy node event = 0 := by
  unfold opens closes closedBy
  by_cases hnode : event.nodeId = some node
  · split
    · next p hp => cases hput _ hnode hp
    · refine ⟨rfl, ?_, ?_⟩
      · split
        · next e hp =>
          cases e with
          | finished p => cases hput _ hnode hp
          | failed p => cases hput _ hnode hp
          | _ => rfl
        · rfl
      · split
        · next p hp => cases hput _ hnode hp
        · next p hp => cases hput _ hnode hp
        · rfl
  · simp only [hnode, Bool.and_false, decide_false, if_false]
    refine ⟨?_, ?_, ?_⟩ <;> split <;> rfl

theorem closedBy_eq_zero (h : closes node event = false) : closedBy node event = 0 := by
  unfold closes at h
  unfold closedBy
  split
  · next p hp =>
    rw [hp] at h
    have hnode : event.nodeId ≠ some node := by simpa [NodeEvent.isTerminal] using h
    exact if_neg hnode
  · next p hp =>
    rw [hp] at h
    have hnode : event.nodeId ≠ some node := by simpa [NodeEvent.isTerminal] using h
    exact if_neg hnode
  · rfl

/-- A close asks nothing and opens nothing. -/
theorem asks_of_closes (h : closes node event = true) :
    askedBy node event = 0 ∧ opens node event = false := by
  unfold closes at h
  unfold askedBy opens
  split at h
  · next e hp =>
    rw [hp]
    cases e with
    | started p => cases h
    | _ => exact ⟨rfl, rfl⟩
  · cases h

/-- What an attempt settled before its close: its rounds, and no terminal. -/
theorem Counted.settling (h : Counted node log s) (hr : s.refuse event = .ok ())
    (hcloses : closes node event = true) :
    (s.counters node).attemptSettled = ((attempt node log).map (askedBy node)).sum ∧
      ((attempt node log).map (closedBy node)).sum = 0 := by
  have hrunning : s.restsIn NodeState.isRunning node = true :=
    Bool.or_eq_true_iff.mpr (Or.inl (isRunning_of_spends hr (Or.inl hcloses)))
  obtain ⟨hsettled, hnone⟩ := h.opened (h.running hrunning)
  refine ⟨hsettled, List.sum_eq_zero ?_⟩
  intro tokens hmem
  obtain ⟨before, hbefore, rfl⟩ := List.mem_map.mp hmem
  exact closedBy_eq_zero (hnone before hbefore)

/-- **One event keeps the count.** -/
theorem Counted.taken (h : Counted node log s) (hr : s.refuse event = .ok ()) :
    Counted node (log ++ [event]) (s.taken event) where
  settled := by
    rw [taken_counters hr, List.map_append, List.sum_append, List.map_singleton,
      List.sum_singleton, ← h.settled]
    rfl
  opened hopen := by
    rw [taken_counters hr] at hopen ⊢
    rw [attempt_concat]
    simp only [Counters.after] at hopen ⊢
    cases hopens : opens node event with
    | true => exact ⟨rfl, fun _ hmem => by cases hmem⟩
    | false =>
      rw [hopens, Bool.false_or, Bool.and_eq_true, Bool.not_eq_true'] at hopen
      obtain ⟨hopen, hcloses⟩ := hopen
      obtain ⟨hsettled, hnone⟩ := h.opened hopen
      rw [hcloses]
      constructor
      · show (s.counters node).attemptSettled + askedBy node event =
          ((attempt node log ++ [event]).map (askedBy node)).sum
        rw [hsettled, List.map_append, List.sum_append, List.map_singleton, List.sum_singleton]
      · intro before hmem
        rcases List.mem_append.mp hmem with hbefore | hown
        · exact hnone before hbefore
        · rw [List.mem_singleton.mp hown]
          exact hcloses
  running hrests := by
    rw [taken_counters hr]
    simp only [Counters.after]
    rcases taken_restsIn hr node (fun _ => rfl) hrests with
      ⟨hbefore, hput⟩ | ⟨hnode, e, state, hp, hput, hrunning⟩
    · obtain ⟨hopens, hcloses, -⟩ := opens_of_putIn hput
      rw [hopens, hcloses, h.running hbefore]
      rfl
    · -- only a start puts the node in a running state
      cases e with
      | started p =>
        have hopens : opens node event = true := by simp [opens, hp, hnode]
        rw [hopens, Bool.true_or]
      | finished p =>
        obtain rfl := Option.some.inj hput
        cases hrunning
      | failed p =>
        obtain rfl := Option.some.inj hput
        cases hrunning
      | _ => cases hput
  closed tokens hrests := by
    have hsums (f : StoredEvent → TokenUsage) :
        ((attempt node log ++ [event]).map f).sum =
          ((attempt node log).map f).sum + f event := by
      rw [List.map_append, List.sum_append, List.map_singleton, List.sum_singleton]
    rw [attempt_concat]
    rcases taken_restsIn hr node (fun _ => rfl) hrests with
      ⟨hbefore, hput⟩ | ⟨hnode, e, state, hp, hput, hclosed⟩
    · obtain ⟨hopens, -, hzero⟩ := opens_of_putIn hput
      -- a node that asks runs, so it rests in no closed state
      have hasked : askedBy node event = 0 := by
        by_contra hne
        have hrunning := isRunning_of_spends hr (Or.inr hne)
        unfold restsIn isWaiting at hbefore
        unfold isRunning at hrunning
        cases hstate : s.nodes.state node with
        | none => simp [hstate] at hrunning
        | some state =>
          rw [hstate] at hrunning hbefore
          cases state <;> simp_all [NodeState.isRunning, NodeState.isWaiting, NodeState.tokens]
      rw [hopens, if_neg Bool.false_ne_true, hsums, hsums, hasked, hzero, add_zero, add_zero]
      exact h.closed tokens hbefore
    · have hclose (he : e.isTerminal = true) (closing : TokenUsage)
          (hcarried : closedBy node event = closing)
          (htokens : state.tokens = some ((s.counters node).attemptSettled + closing)) :
          tokens = ((if opens node event then [] else attempt node log ++ [event]).map
            (askedBy node)).sum + ((if opens node event then [] else
              attempt node log ++ [event]).map (closedBy node)).sum := by
        have hcloses : closes node event = true := by simp [closes, hp, hnode, he]
        obtain ⟨hasked, hopens⟩ := asks_of_closes hcloses
        obtain ⟨hsettled, hnone⟩ := h.settling hr hcloses
        rw [hopens, if_neg Bool.false_ne_true, hsums, hsums, hasked, hnone, hcarried, add_zero,
          zero_add, ← hsettled]
        have hstate : state.tokens = some tokens := by simpa using hclosed
        exact Option.some.inj (hstate.symm.trans htokens)
      cases e with
      | finished p =>
        obtain rfl := Option.some.inj hput
        exact hclose rfl p.tokensUsed (by simp [closedBy, hp, hnode]) rfl
      | failed p =>
        obtain rfl := Option.some.inj hput
        exact hclose rfl p.tokensUsed (by simp [closedBy, hp, hnode]) rfl
      | started p =>
        obtain rfl := Option.some.inj hput
        cases hclosed
      | _ => cases hput

/-- **What a terminal leaves of its node**: nothing in flight, and a closed state with what the
    attempt settled and what the terminal carried. -/
theorem taken_closes (hcloses : closes node event = true) :
    (((s.taken event).nodes.get node).getD {}).spend.inFlight = 0 ∧
      ∃ state, (s.taken event).nodes.state node = some state ∧
        state.tokens = some ((s.counters node).attemptSettled + closedBy node event) := by
  unfold closes at hcloses
  split at hcloses
  · next e hp =>
    obtain ⟨hterminal, hnode⟩ : e.isTerminal = true ∧ event.nodeId = some node := by
      simpa using hcloses
    have hget : (s.taken event).nodes.get node =
        some (((s.nodes.get node).getD {}).onEvent e event.meta_ s.run.suspensions) := by
      rw [taken_node hp]
      exact s.nodes.apply_get node hnode s.run.suspensions
    rw [NodeLedger.state, hget, Option.bind_some, NodeRecord.onEvent_state]
    unfold closedBy
    rw [hp]
    cases e with
    | finished p =>
      refine ⟨(NodeRecord.endAttempt_counters _ p.tokensUsed event.meta_ _).2, _, rfl, ?_⟩
      exact congrArg some (congrArg (_ + ·) (if_pos hnode).symm)
    | failed p =>
      refine ⟨(NodeRecord.endAttempt_counters _ p.tokensUsed event.meta_ _).2, _, rfl, ?_⟩
      exact congrArg some (congrArg (_ + ·) (if_pos hnode).symm)
    | _ => cases hterminal
  · cases hcloses

end

/-- **Every accepted log is counted.** -/
theorem derive_counted {log : List StoredEvent} (h : Accepted log) (node : NodeId) :
    Counted node log (derive log) := by
  induction log using List.reverseRecOn with
  | nil =>
    refine ⟨rfl, ?_, ?_, ?_⟩
    · intro hopen
      cases hopen
    · intro hrests
      cases hrests
    · intro _ hrests
      cases hrests
  | append_singleton log event ih =>
    obtain ⟨hr, hderive⟩ := derive_snoc h
    rw [hderive]
    exact (ih (accepted_of_append h)).taken hr

end RunState

/-- **Tokens are counted once.**  What a node settled is what its rounds of questions and its
    terminals carried; the tokens of the closed state it is in are those of the rounds and the
    terminal of its latest attempt; and right after every terminal nothing is in flight, and the
    state carries what the attempt's rounds settled and what the terminal carried.  These are sums
    of `u64`s; where what the node carried fits one, they are the sums of the numbers. -/
theorem tokens_counted_once {log : List StoredEvent} (h : Accepted log) (node : NodeId) :
    (((derive log).nodes.get node).getD {}).spend.settled = (log.map (carriedBy node)).sum ∧
      (∀ state tokens, (derive log).nodes.state node = some state → state.tokens = some tokens →
        tokens = ((attempt node log).map (askedBy node)).sum +
          ((attempt node log).map (closedBy node)).sum) ∧
      (∀ before event after, log = before ++ event :: after → closes node event = true →
        (((derive (before ++ [event])).nodes.get node).getD {}).spend.inFlight = 0 ∧
          ∃ state, (derive (before ++ [event])).nodes.state node = some state ∧
            state.tokens =
              some (((attempt node before).map (askedBy node)).sum + closedBy node event)) ∧
      (TokenUsage.Fits (log.map (carriedBy node)) →
        (((derive log).nodes.get node).getD {}).spend.settled.amounts =
            (log.map fun event => (carriedBy node event).amounts).sum ∧
          ∀ state tokens, (derive log).nodes.state node = some state →
            state.tokens = some tokens →
              tokens.amounts =
                ((attempt node log).map fun event => (carriedBy node event).amounts).sum) := by
  have hcounted := RunState.derive_counted h node
  have hclosed (state : NodeState) (tokens : TokenUsage)
      (hstate : (derive log).nodes.state node = some state) (htokens : state.tokens = some tokens) :
      tokens = ((attempt node log).map (askedBy node)).sum +
        ((attempt node log).map (closedBy node)).sum := by
    refine hcounted.closed tokens (Bool.or_eq_true_iff.mpr (Or.inl ?_))
    rw [hstate, Option.any_some]
    exact decide_eq_true htokens
  have hexact {events : List StoredEvent} (hfits : TokenUsage.Fits (events.map (carriedBy node))) :
      (events.map (carriedBy node)).sum.amounts =
        (events.map fun event => (carriedBy node event).amounts).sum := by
    rw [TokenUsage.amounts_sum hfits, List.map_map]
    rfl
  refine ⟨hcounted.settled, hclosed, ?_, fun hfits => ⟨?_, ?_⟩⟩
  · rintro before event after rfl hcloses
    have hcut : Accepted (before ++ [event]) := by
      rw [List.append_cons] at h
      exact accepted_of_append h
    obtain ⟨hr, hderive⟩ := derive_snoc hcut
    have hsettled := ((RunState.derive_counted (accepted_of_append hcut) node).settling hr hcloses).1
    rw [hderive, ← hsettled]
    exact RunState.taken_closes hcloses
  · exact (congrArg TokenUsage.amounts hcounted.settled).trans (hexact hfits)
  · intro state tokens hstate htokens
    -- the attempt is the end of the log, so it fits where the log does
    obtain ⟨earlier, hlog⟩ : attempt node log <:+ log := List.rtakeWhile_suffix _ _
    rw [← hlog, List.map_append] at hfits
    rw [hclosed state tokens hstate htokens, ← List.sum_map_add]
    exact hexact hfits.right

/-- `grill` asks in its first attempt, is cut, and asks again in its second. -/
def askedLog : List StoredEvent :=
  [nodeEvent 1 0 "grill" (.started ⟨1, none, none⟩),
    ⟨"", 2, 0, some "grill", .known (.gates (.questionsAsked ⟨["q"], ⟨30, 12, none⟩⟩))⟩,
    nodeEvent 3 0 "grill" (.started ⟨2, none, none⟩),
    ⟨"", 4, 0, some "grill", .known (.gates (.questionsAsked ⟨["q"], ⟨20, 5, none⟩⟩))⟩,
    ⟨"", 5, 0, some "grill", .known (.gates (.questionsAnswered {}))⟩]

/-- Its second attempt finishes. -/
def grilled : StoredEvent := nodeEvent 6 0 "grill" (.finished { tokensUsed := ⟨3, 1, none⟩ })

/-- Both rounds are settled, and the second attempt carries its own. -/
theorem tokens_counted_once_asked :
    (((derive (askedLog ++ [grilled])).nodes.get "grill").getD {}).spend.settled = ⟨53, 18, none⟩ ∧
      ∃ state, (derive (askedLog ++ [grilled])).nodes.state "grill" = some state ∧
        state.tokens = some ⟨23, 6, none⟩ := by
  have htaken : Accepted (askedLog ++ [grilled]) := by decide +kernel
  obtain ⟨hsettled, -, hclosed, -⟩ := tokens_counted_once htaken "grill"
  obtain ⟨-, state, hstate, htokens⟩ := hclosed askedLog grilled [] rfl (by decide +kernel)
  exact ⟨hsettled.trans (by decide +kernel), state, hstate, htokens.trans (by decide +kernel)⟩

/-- `a` finishes twice, on 2^63 tokens each time. -/
def twiceLog : List StoredEvent :=
  [nodeEvent 1 0 "a" (.started ⟨1, none, none⟩),
    nodeEvent 2 0 "a" (.finished { tokensUsed := ⟨2 ^ 63, 0, none⟩ }),
    nodeEvent 3 0 "a" (.started ⟨2, none, none⟩),
    nodeEvent 4 0 "a" (.finished { tokensUsed := ⟨2 ^ 63, 0, none⟩ })]

/-- It settled nothing: the sum wrapped. -/
theorem not_tokens_counted_once :
    ¬ ∀ (log : List StoredEvent) (node : NodeId), Accepted log →
      (((derive log).nodes.get node).getD {}).spend.settled.amounts =
        (log.map fun event => (carriedBy node event).amounts).sum := by
  intro h
  have hsum := h twiceLog "a" (by decide +kernel)
  revert hsum
  decide +kernel

end Yunta
