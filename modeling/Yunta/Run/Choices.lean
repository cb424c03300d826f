/-
  How long a person's decision about a node stands.

  1. **Events** — what a node's gate is asked (`opens`) and answered (`resolves`), and what acts on
     an answer: a terminal or a reroute of the node, and a pause of the run (`consumes`).

  2. **Registers** — `question` holds what the node's gate asks now, `answer` the latest resolution
     while nothing acted on it and nothing was asked since, and `choice` the latest resolution of
     the node's own while nothing acted on it.

  3. **What the ledgers keep** — seqs that rise put every mark of the state before the next event
     (`GateRecord.Ordered`, `untouched`), so comparing seqs reads what came after what.

  4. **Main results** — `preSeeded_eq` and `pending_eq`: comparing seqs holds what the registers
     hold, and `preSeeded_iff` and `runAgainChosen_iff` say between which events of the log.
-/
import Yunta.Lib.Register
import Yunta.Replay.Marks
import Yunta.Run.Escalation

set_option linter.unusedVariables false

namespace Yunta

/-- A log whose seqs rise. -/
def Rising (log : List StoredEvent) : Prop := log.Pairwise fun a b => a.seq < b.seq

instance (log : List StoredEvent) : Decidable (Rising log) :=
  inferInstanceAs (Decidable (log.Pairwise _))

theorem Rising.below {log : List StoredEvent} {event : StoredEvent} (h : Rising (log ++ [event])) :
    ∀ before ∈ log, before.seq < event.seq := by
  intro before hmem
  exact (List.pairwise_append.mp h).2.2 before hmem event List.mem_cons_self

theorem Rising.front {log more : List StoredEvent} (h : Rising (log ++ more)) : Rising log :=
  (List.pairwise_append.mp h).1

namespace Choices

/-! ## Events -/

/-- The gate event of `node`'s an event is. -/
def gateEvent (node : NodeId) (event : StoredEvent) : Option GateEvent :=
  match event.payload with
  | some (.gates e) => if event.nodeId = some node then some e else none
  | _ => none

/-- What an event asks at `node`'s gate. -/
def opens (node : NodeId) (event : StoredEvent) : Option GateWaitingPayload :=
  match gateEvent node event with
  | some (.waiting p) => some p
  | _ => none

/-- What an event resolves `node`'s gate with. -/
def resolves (node : NodeId) (event : StoredEvent) : Option GateResolvedPayload :=
  match gateEvent node event with
  | some (.resolved p) => some p
  | _ => none

/-- Whether an event acts on what was decided about `node`: it closes an attempt of the node or
    reroutes it, or it pauses the run. -/
def consumes (node : NodeId) (event : StoredEvent) : Bool :=
  match event.payload with
  | some (.node (.finished _)) | some (.node (.failed _)) | some (.node (.rerouted _)) =>
    event.nodeId = some node
  | some (.run (.paused _)) => true
  | _ => false

/-! ## Registers -/

/-- What `node`'s gate asks, and where: asked until it is resolved. -/
def question (node : NodeId) : Register StoredEvent (GateWaitingPayload × Nat) := fun _ event =>
  match gateEvent node event with
  | some (.waiting p) => .set (p, event.seq)
  | some (.resolved _) => .clear
  | _ => .keep

/-- Whether `node`'s gate asks about one of its tasks after `log`. -/
def asksTask (node : NodeId) (log : List StoredEvent) : Bool :=
  ((question node).held log).any fun asked => asked.1.menu.any Menu.answersATask

/-- What one event does to the latest answer of `node`'s gate. -/
def answerMove (node : NodeId) (event : StoredEvent) :
    Register.Move (GateResolvedPayload × Nat) :=
  match resolves node event with
  | some p => .set (p, event.seq)
  | none => if consumes node event || (opens node event).isSome then .clear else .keep

/-- The latest answer of `node`'s gate, while nothing acted on it or was asked since. -/
def answer (node : NodeId) : Register StoredEvent (GateResolvedPayload × Nat) := fun _ event =>
  answerMove node event

/-- The latest answer of `node`'s own, while nothing acted on it: an answer about a task of the node
    is none. -/
def choice (node : NodeId) : Register StoredEvent (GateResolvedPayload × Nat) := fun before event =>
  match resolves node event with
  | some p => if asksTask node before then .keep else .set (p, event.seq)
  | none => if consumes node event then .clear else .keep

/-! ### What an event is -/

section
variable {node : NodeId} {event : StoredEvent}

theorem gateEvent_eq_some {e : GateEvent} :
    gateEvent node event = some e ↔
      event.payload = some (.gates e) ∧ event.nodeId = some node := by
  unfold gateEvent
  constructor
  · intro h
    split at h
    · next e' hp =>
      rw [Option.ite_none_right_eq_some] at h
      obtain ⟨hnode, he⟩ := h
      rw [hp, Option.some.inj he]
      exact ⟨rfl, hnode⟩
    · cases h
  · rintro ⟨hp, hnode⟩
    rw [hp]
    exact if_pos hnode

theorem resolves_eq_some {p : GateResolvedPayload} :
    resolves node event = some p ↔ gateEvent node event = some (.resolved p) := by
  unfold resolves
  split
  · next q he => rw [he, Option.some.injEq, Option.some.injEq, GateEvent.resolved.injEq]
  · next hother =>
    exact ⟨nofun, fun h => absurd h (hother p)⟩

theorem opens_eq_some {p : GateWaitingPayload} :
    opens node event = some p ↔ gateEvent node event = some (.waiting p) := by
  unfold opens
  split
  · next q he => rw [he, Option.some.injEq, Option.some.injEq, GateEvent.waiting.injEq]
  · next hother =>
    exact ⟨nofun, fun h => absurd h (hother p)⟩

/-- A gate event acts on nothing that was decided. -/
theorem consumes_of_gate {e : GateEvent} (h : gateEvent node event = some e) :
    consumes node event = false := by
  unfold consumes
  rw [(gateEvent_eq_some.mp h).1]

end

end Choices

/-! ## What the ledgers keep -/

/-- An event that is none of the node's own acts on its decision where it pauses the run. -/
theorem Choices.consumes_of_other {node : NodeId} {event : StoredEvent}
    (h : ∀ e, event.payload = some (.node e) → event.nodeId ≠ some node) :
    Choices.consumes node event = RunState.isPause event := by
  unfold Choices.consumes RunState.isPause
  split
  · next p hp => rw [hp]; simpa using h _ hp
  · next p hp => rw [hp]; simpa using h _ hp
  · next p hp => rw [hp]; simpa using h _ hp
  · next p hp => rw [hp]
  · next hpause =>
    split
    · next p hp => exact absurd hp (hpause p)
    · rfl

namespace GateRecord

/-- A record whose seqs lie below `bound`: what it waits on was asked after every resolution. -/
structure Ordered (r : GateRecord) (bound : Nat) : Prop where
  resolved : ∀ resolution ∈ r.resolved, resolution.2 < bound
  answers : ∀ seq, r.taskAnswers.contains seq = true → seq < bound
  waiting : ∀ asked, r.waiting = some asked →
    asked.2 < bound ∧ ∀ resolution ∈ r.resolved, resolution.2 < asked.2

theorem ordered_empty (bound : Nat) : Ordered {} bound where
  resolved := by
    intro resolution hmem
    cases hmem
  answers := by
    intro seq hseq
    simp [OrdSet] at hseq
  waiting := by
    intro asked hasked
    cases hasked

/-- A gate event past every seq of a record keeps it in order. -/
theorem Ordered.apply {r : GateRecord} {e : GateEvent} {seq bound : Nat} (h : r.Ordered seq)
    (hbound : seq < bound) : (r.apply e seq).Ordered bound := by
  have hresolved : ∀ resolution ∈ r.resolved, resolution.2 < bound := by
    intro resolution hmem
    have := h.resolved resolution hmem
    omega
  have hanswers : ∀ n, r.taskAnswers.contains n = true → n < bound := by
    intro n hn
    have := h.answers n hn
    omega
  have hwaiting : ∀ asked, r.waiting = some asked →
      asked.2 < bound ∧ ∀ resolution ∈ r.resolved, resolution.2 < asked.2 := by
    intro asked hasked
    obtain ⟨hlt, hafter⟩ := h.waiting asked hasked
    exact ⟨by omega, hafter⟩
  cases e with
  | waiting p =>
    refine ⟨hresolved, hanswers, ?_⟩
    intro asked hasked
    obtain rfl := Option.some.inj hasked
    exact ⟨hbound, h.resolved⟩
  | resolved p =>
    refine ⟨?_, ?_, ?_⟩
    · intro resolution hmem
      rcases List.mem_append.mp hmem with hold | hnew
      · exact hresolved resolution hold
      · rw [List.mem_singleton.mp hnew]
        exact hbound
    · intro n hn
      unfold GateRecord.apply at hn
      dsimp only at hn
      split at hn
      · rw [Std.ExtTreeSet.contains_insert, Bool.or_eq_true] at hn
        rcases hn with heq | hold
        · have := Std.LawfulEqCmp.eq_of_compare (eq_of_beq heq)
          omega
        · exact hanswers n hold
      · exact hanswers n hn
    · intro asked hasked
      cases hasked
  | questionsAsked p => exact ⟨hresolved, hanswers, hwaiting⟩
  | questionsAnswered p => exact ⟨hresolved, hanswers, hwaiting⟩
  | askingOpened => exact ⟨hresolved, hanswers, hwaiting⟩

/-- A resolution of the node's own joins the others; an answer about a task does not. -/
theorem apply_resolved_own {r : GateRecord} {seq : Nat} (h : r.Ordered seq)
    (p : GateResolvedPayload) :
    (r.apply (.resolved p) seq).ownResolutions =
      if r.waiting.any fun asked => asked.1.menu.any Menu.answersATask then r.ownResolutions
      else r.ownResolutions ++ [(p, seq)] := by
  have hfresh : r.taskAnswers.contains seq = false := by
    by_contra hseq
    have := h.answers seq (by simpa using hseq)
    omega
  cases htask : r.waiting.any fun asked => asked.1.menu.any Menu.answersATask with
  | true =>
    simp only [GateRecord.apply, htask, ownResolutions, if_true, List.filter_append]
    rw [r.own_insert h.resolved]
    simp [ownResolutions]
  | false =>
    simp only [GateRecord.apply, htask, ownResolutions, Bool.false_eq_true, if_false,
      List.filter_append]
    simp [hfresh]

end GateRecord

/-- A gate event of a node's folds onto its record. -/
theorem GateLedger.getD_apply (l : GateLedger) (e : GateEvent) {m : EventMeta} {node : NodeId}
    (hm : m.node = some node) :
    ((l.apply e m).get node).getD {} = ((l.get node).getD {}).apply e m.seq := by
  have hsame : (l.track e m).get node = l.get node := by
    rw [GateLedger.get, track_perNode]
    rfl
  have hwrites : (OrdMap.upsert (l.track e m).perNode node {}
      (fun r => r.apply e m.seq))[node]?.getD {} = ((l.get node).getD {}).apply e m.seq := by
    rw [OrdMap.getElem?_upsert_self, track_perNode]
    rfl
  unfold GateLedger.apply
  rw [hm]
  cases e with
  | askingOpened => exact congrArg (fun r => r.getD {}) hsame
  | _ => exact hwrites

namespace RunState

variable {s : RunState} {event : StoredEvent} {node : NodeId}

/-- What a node's gate record holds, empty where it has none. -/
def gateRecord (s : RunState) (node : NodeId) : GateRecord := (s.gates.get node).getD {}

/-- Whether nothing closed the node, rerouted it or paused the run from `at_` on. -/
def untouched (s : RunState) (node : NodeId) (at_ : Nat) : Bool :=
  (s.marks node).lastTerminal.all (· < at_) &&
    (s.marks node).lastReroute.all (fun reroute => reroute.seq < at_) &&
    s.run.lastPausedAt.all (· < at_)

/-- A decision stands where nothing touched its node since, and nothing is asked after it. -/
theorem unconsumed_eq (at_ : Nat) :
    s.unconsumed node at_ =
      (s.untouched node at_ && (s.gateRecord node).waiting.all (fun asked => asked.2 < at_)) := by
  have hstanding : (((s.gates.get node).bind (·.waiting)).map (·.2)).all (· < at_) =
      (s.gateRecord node).waiting.all fun asked => asked.2 < at_ := by
    unfold gateRecord
    cases s.gates.get node with
    | none => rfl
    | some record => exact Option.all_map ..
  unfold unconsumed untouched marks NodeRecord.marks
  dsimp only
  rw [hstanding]
  cases s.nodes.get node with
  | none => rfl
  | some record =>
    rw [Option.bind_some, Option.bind_some, Option.getD_some, Option.all_map]

/-- **A gate event of the node's** is what its record folds; every other event leaves the record. -/
theorem taken_gateRecord_eq (hr : s.refuse event = .ok ()) :
    (s.taken event).gateRecord node =
      match Choices.gateEvent node event with
      | some e => (s.gateRecord node).apply e event.seq
      | none => s.gateRecord node := by
  cases he : Choices.gateEvent node event with
  | none =>
    rcases taken_gateRecord hr node with hsame | ⟨e, hp, hnode, -⟩
    · rw [gateRecord, hsame, gateRecord]
    · rw [Choices.gateEvent_eq_some.mpr ⟨hp, hnode⟩] at he
      cases he
  | some e =>
    obtain ⟨hp, hnode⟩ := Choices.gateEvent_eq_some.mp he
    rw [gateRecord, taken_gate hr hp]
    show ((s.gates.apply e event.meta_).get node).getD {} = _
    exact s.gates.getD_apply e (show event.meta_.node = some node from hnode)

/-- Only a pause moves where the run last paused. -/
theorem taken_lastPausedAt (hr : s.refuse event = .ok ()) :
    (s.taken event).run.lastPausedAt =
      if isPause event then some event.seq else s.run.lastPausedAt := by
  rw [taken_run_ledger hr]
  unfold isPause
  cases hp : event.payload with
  | none => rfl
  | some payload =>
    cases payload with
    | run e =>
      cases e with
      | resumed p =>
        show (s.run.resumed p event.meta_).lastPausedAt = s.run.lastPausedAt
        unfold RunLedger.resumed
        dsimp only
        split <;> rfl
      | _ => rfl
    | _ => rfl

/-- **What touches a node** past `at_` is an event that acts on what was decided there. -/
theorem taken_untouched (hr : s.refuse event = .ok ()) {at_ : Nat} (hat : at_ ≤ event.seq) :
    (s.taken event).untouched node at_ =
      (!Choices.consumes node event && s.untouched node at_) := by
  have hlt : ¬ event.seq < at_ := by omega
  unfold untouched
  rw [taken_lastPausedAt hr]
  rcases taken_marks_cases hr node with ⟨e, hp, hnode, hmarks⟩ | ⟨hother, hmarks⟩
  · have hpause : isPause event = false := by
      unfold isPause
      rw [hp]
    rw [hmarks, hpause]
    unfold Choices.consumes
    rw [hp]
    cases e <;> simp [Marks.after, hnode, hlt, Reroute.of]
  · rw [hmarks, Choices.consumes_of_other hother]
    cases isPause event with
    | true => simp [hlt]
    | false => rfl

/-- An event before `at_` leaves a node nothing touched from there on. -/
theorem taken_untouched_before (hr : s.refuse event = .ok ()) {at_ : Nat} (hat : event.seq < at_)
    (h : s.untouched node at_ = true) : (s.taken event).untouched node at_ = true := by
  unfold untouched at h ⊢
  rw [Bool.and_eq_true, Bool.and_eq_true] at h
  obtain ⟨⟨hterminal, hreroute⟩, hpaused⟩ := h
  rw [taken_lastPausedAt hr, Bool.and_eq_true, Bool.and_eq_true]
  refine ⟨?_, ?_⟩
  · rcases taken_marks_cases hr node with ⟨e, hp, hnode, hmarks⟩ | ⟨-, hmarks⟩
    · rw [hmarks]
      cases e <;> simp [Marks.after, hat, hterminal, hreroute, Reroute.of]
    · rw [hmarks]
      exact ⟨hterminal, hreroute⟩
  · split
    · simpa using hat
    · exact hpaused

end RunState

/-! ## What a log leaves -/

namespace Choices

open RunState

/-- A log the state derives from, past which the next event lies. -/
structure Reads (log : List StoredEvent) : Prop where
  accepted : Accepted log
  rising : Rising log

theorem Reads.front {log : List StoredEvent} {event : StoredEvent} (h : Reads (log ++ [event])) :
    Reads log :=
  ⟨accepted_of_append h.accepted, h.rising.front⟩

section
variable {node : NodeId} {log : List StoredEvent}

/-- What the log leaves of a node lies before every seq past the log. -/
theorem derive_untouched (node : NodeId) (h : Reads log) {at_ : Nat}
    (hat : ∀ event ∈ log, event.seq < at_) :
    (derive log).untouched node at_ = true := by
  induction log using List.reverseRecOn with
  | nil => rfl
  | append_singleton log event ih =>
    obtain ⟨hr, hderive⟩ := derive_snoc h.accepted
    rw [hderive]
    refine taken_untouched_before hr (hat event (by simp)) (ih h.front fun before hmem => ?_)
    exact hat before (List.mem_append_left _ hmem)

/-- A gate's record is in order, and lies before every seq past the log. -/
theorem derive_ordered (node : NodeId) (h : Reads log) {bound : Nat}
    (hbound : ∀ event ∈ log, event.seq < bound) :
    ((derive log).gateRecord node).Ordered bound := by
  induction log using List.reverseRecOn generalizing bound with
  | nil => exact GateRecord.ordered_empty bound
  | append_singleton log event ih =>
    obtain ⟨hr, hderive⟩ := derive_snoc h.accepted
    have hlast : event.seq < bound := hbound event (by simp)
    rw [hderive, taken_gateRecord_eq hr]
    cases gateEvent node event with
    | none =>
      exact ih h.front fun before hmem => hbound before (List.mem_append_left _ hmem)
    | some e => exact (ih h.front h.rising.below).apply hlast

/-- **A record waits on what the node's gate asks.** -/
theorem derive_waiting (h : Reads log) :
    ((derive log).gateRecord node).waiting = (question node).held log := by
  refine Register.eq_held (fun log => ((derive log).gateRecord node).waiting)
    (fun _ _ => Reads.front) rfl ?_ h
  · intro log event h
    obtain ⟨hr, hderive⟩ := derive_snoc h.accepted
    rw [hderive, taken_gateRecord_eq hr]
    unfold question
    cases gateEvent node event with
    | none => rfl
    | some e => cases e <;> rfl

/-! ### The latest answer -/

/-- The latest answer, read off the record and what touched its node. -/
theorem preSeeded_def (s : RunState) :
    s.preSeeded node = (s.gateRecord node).resolved.getLast?.filter fun resolution =>
      s.untouched node resolution.2 &&
        (s.gateRecord node).waiting.all fun asked => asked.2 < resolution.2 := by
  have hlast : (s.gates.get node).bind (·.resolved.getLast?) =
      (s.gateRecord node).resolved.getLast? := by
    unfold gateRecord
    cases s.gates.get node <;> rfl
  unfold preSeeded
  rw [hlast]
  simp only [unconsumed_eq]

/-- **What the run reads of the latest answer** is what its register holds. -/
theorem preSeeded_eq (h : Reads log) :
    (derive log).preSeeded node = (answer node).held log := by
  refine Register.eq_held (fun log => (derive log).preSeeded node) (fun _ _ => Reads.front) rfl ?_ h
  · intro log event h
    obtain ⟨hr, hderive⟩ := derive_snoc h.accepted
    have hordered := derive_ordered node h.front h.rising.below
    rw [hderive, preSeeded_def, preSeeded_def, taken_gateRecord_eq hr]
    unfold answer answerMove resolves opens
    cases he : gateEvent node event with
    | none =>
      dsimp only
      cases hlast : ((derive log).gateRecord node).resolved.getLast? with
      | none => cases consumes node event <;> rfl
      | some resolution =>
        have hat := hordered.resolved resolution (List.mem_of_getLast? hlast)
        simp only [Option.filter_some, taken_untouched hr (Nat.le_of_lt hat)]
        cases consumes node event <;> simp [Register.Move.on]
    | some e =>
      have hquiet := consumes_of_gate he
      dsimp only
      cases e with
      | resolved p =>
        -- the new answer lies past every mark
        have hfresh := derive_untouched node h.front h.rising.below
        simp [GateRecord.apply, Option.filter_some, taken_untouched hr (Nat.le_refl event.seq),
          hquiet, hfresh, Register.Move.on]
      | waiting p =>
        -- the new question lies past every answer
        cases hlast : ((derive log).gateRecord node).resolved.getLast? with
        | none => simp [GateRecord.apply, hlast, Register.Move.on]
        | some resolution =>
          have hat := hordered.resolved resolution (List.mem_of_getLast? hlast)
          have hpast : ¬ event.seq < resolution.2 := by omega
          simp [GateRecord.apply, hlast, Option.filter_some, hpast, Register.Move.on]
      | _ =>
        cases hlast : ((derive log).gateRecord node).resolved.getLast? with
        | none => simp [GateRecord.apply, hlast, hquiet, Register.Move.on]
        | some resolution =>
          have hat := hordered.resolved resolution (List.mem_of_getLast? hlast)
          simp [GateRecord.apply, hlast, Option.filter_some,
            taken_untouched hr (Nat.le_of_lt hat), hquiet, Register.Move.on]

/-! ### The latest choice -/

/-- The latest answer of the node's own, while nothing touched the node since. -/
def pending (s : RunState) (node : NodeId) : Option (GateResolvedPayload × Nat) :=
  (s.gateRecord node).ownResolutions.getLast?.filter fun resolution =>
    s.untouched node resolution.2

/-- **The latest answer of the node's own** is what its register holds. -/
theorem pending_eq (h : Reads log) : pending (derive log) node = (choice node).held log := by
  refine Register.eq_held (fun log => pending (derive log) node) (fun _ _ => Reads.front) rfl ?_ h
  · intro log event h
    obtain ⟨hr, hderive⟩ := derive_snoc h.accepted
    have hordered := derive_ordered node h.front h.rising.below
    have hkept (hquiet : consumes node event = false) :
        ((derive log).gateRecord node).ownResolutions.getLast?.filter
            (fun resolution => ((derive log).taken event).untouched node resolution.2) =
          pending (derive log) node := by
      unfold pending
      cases hlast : ((derive log).gateRecord node).ownResolutions.getLast? with
      | none => rfl
      | some resolution =>
        have hmem := List.mem_of_mem_filter (List.mem_of_getLast? hlast)
        have hat := hordered.resolved resolution hmem
        simp [Option.filter_some, taken_untouched hr (Nat.le_of_lt hat), hquiet]
    rw [hderive]
    unfold choice resolves
    rw [pending, taken_gateRecord_eq hr]
    cases he : gateEvent node event with
    | none =>
      dsimp only
      cases hacts : consumes node event with
      | false => exact hkept hacts
      | true =>
        cases hlast : ((derive log).gateRecord node).ownResolutions.getLast? with
        | none => rfl
        | some resolution =>
          have hmem := List.mem_of_mem_filter (List.mem_of_getLast? hlast)
          have hat := hordered.resolved resolution hmem
          simp [Option.filter_some, taken_untouched hr (Nat.le_of_lt hat), hacts, Register.Move.on]
    | some e =>
      have hquiet := consumes_of_gate he
      dsimp only
      cases e with
      | resolved p =>
        rw [GateRecord.apply_resolved_own hordered, derive_waiting h.front]
        show (if asksTask node log = true then _ else _ : List _).getLast?.filter _ = _
        cases htask : asksTask node log with
        | true => exact hkept hquiet
        | false =>
          have hfresh := derive_untouched node h.front h.rising.below
          simp [Option.filter_some, taken_untouched hr (Nat.le_refl event.seq), hquiet, hfresh,
            Register.Move.on]
      | _ =>
        rw [hquiet]
        exact hkept hquiet

/-- The option a resolution chose that runs its node again. -/
def again : GateResolvedPayload → Option ReservedOption
  | .chosen choice => (ReservedOption.of choice.option).filter ReservedOption.runsAgain
  | _ => none

/-- Some seq lies past a log. -/
theorem exists_past (log : List StoredEvent) : ∃ bound, ∀ event ∈ log, event.seq < bound := by
  induction log with
  | nil => exact ⟨0, by simp⟩
  | cons event log ih =>
    obtain ⟨bound, hbound⟩ := ih
    refine ⟨max bound (event.seq + 1), fun other hmem => ?_⟩
    rcases List.mem_cons.mp hmem with rfl | hmem
    · omega
    · have := hbound other hmem
      omega

/-- **The choice to run a node again** is the one its register holds, while nothing is asked. -/
theorem runAgainChosen_eq (h : Reads log) :
    (derive log).runAgainChosen node =
      if ((question node).held log).isSome then none
      else ((choice node).held log).bind fun resolution => again resolution.1 := by
  obtain ⟨bound, hbound⟩ := exists_past log
  have hordered := derive_ordered node h hbound
  rw [← derive_waiting h, ← pending_eq h, pending]
  unfold runAgainChosen
  have hrecord : ((derive log).gates.get node).getD {} = (derive log).gateRecord node := rfl
  cases hget : (derive log).gates.get node with
  | none =>
    rw [hget] at hrecord
    rw [← hrecord]
    rfl
  | some record =>
    rw [hget, Option.getD_some] at hrecord
    subst hrecord
    cases hlast : ((derive log).gateRecord node).ownResolutions.getLast? with
    | none => simp [hlast]
    | some resolution =>
      obtain ⟨p, at_⟩ := resolution
      have hmem := List.mem_of_mem_filter (List.mem_of_getLast? hlast)
      have hstands : (derive log).unconsumed node at_ =
          (!((derive log).gateRecord node).waiting.isSome && (derive log).untouched node at_) := by
        rw [unconsumed_eq, Bool.and_comm]
        cases hasked : ((derive log).gateRecord node).waiting with
        | none => rfl
        | some asked =>
          -- what is asked now was asked after every answer
          have hpast := (hordered.waiting asked hasked).2 (p, at_) hmem
          have : ¬ asked.2 < at_ := by omega
          simp [this]
      simp only [hlast, Option.bind_eq_bind, Option.bind_some, Option.filter_some, hstands]
      cases p with
      | chosen choice =>
        cases hof : ReservedOption.of choice.option with
        | none => cases (derive log).untouched node at_ <;> simp [again, hof]
        | some option =>
          cases ((derive log).gateRecord node).waiting.isSome <;>
            cases (derive log).untouched node at_ <;>
              cases hruns : option.runsAgain <;> simp [again, hof, Option.filter_some, hruns]
      | _ => cases (derive log).untouched node at_ <;> simp [again]

/-! ## The windows -/

/-- The node's gate was answered at `at_`, and since then nothing acted on the answer, and nothing
    was asked or answered. -/
def Answered (node : NodeId) (log : List StoredEvent) (p : GateResolvedPayload) (at_ : Nat) :
    Prop :=
  ∃ before event after, log = before ++ event :: after ∧ event.seq = at_ ∧
    resolves node event = some p ∧
    ∀ later ∈ after, consumes node later = false ∧ opens node later = none ∧
      resolves node later = none

/-- A person chose at `at_` to run the node again: since then nothing acted on the choice, what was
    answered was asked about a task of the node, and nothing is asked now. -/
def Chosen (node : NodeId) (log : List StoredEvent) (option : ReservedOption) (at_ : Nat) : Prop :=
  (question node).held log = none ∧
    ∃ before event after choice, log = before ++ event :: after ∧ event.seq = at_ ∧
      resolves node event = some (.chosen choice) ∧
      ReservedOption.of choice.option = some option ∧ option.runsAgain = true ∧
      asksTask node before = false ∧ (∀ later ∈ after, consumes node later = false) ∧
      ∀ mid later rest, after = mid ++ later :: rest → (resolves node later).isSome = true →
        asksTask node (before ++ event :: mid) = true

theorem answerMove_set {event : StoredEvent} {p : GateResolvedPayload} {at_ : Nat} :
    answerMove node event = .set (p, at_) ↔ event.seq = at_ ∧ resolves node event = some p := by
  unfold answerMove
  cases resolves node event with
  | some q => simp [and_comm]
  | none =>
    cases consumes node event || (opens node event).isSome <;> simp

theorem answerMove_keep {event : StoredEvent} :
    answerMove node event = .keep ↔
      consumes node event = false ∧ opens node event = none ∧ resolves node event = none := by
  unfold answerMove
  cases resolves node event with
  | some q => simp
  | none => cases consumes node event <;> cases opens node event <;> simp

theorem choice_set {before : List StoredEvent} {event : StoredEvent} {p : GateResolvedPayload}
    {at_ : Nat} :
    choice node before event = .set (p, at_) ↔
      event.seq = at_ ∧ resolves node event = some p ∧ asksTask node before = false := by
  unfold choice
  cases resolves node event with
  | some q => cases asksTask node before <;> simp [and_comm]
  | none => cases consumes node event <;> simp

theorem choice_keep {before : List StoredEvent} {event : StoredEvent} :
    choice node before event = .keep ↔
      consumes node event = false ∧
        ((resolves node event).isSome = true → asksTask node before = true) := by
  unfold choice
  cases hresolves : resolves node event with
  | some p =>
    have hquiet := consumes_of_gate (resolves_eq_some.mp hresolves)
    cases asksTask node before <;> simp [hquiet]
  | none => cases consumes node event <;> simp

/-- **The answer a run was handed is seen from the resolution** up to what acts on it, or is asked
    or answered next. -/
theorem preSeeded_iff (h : Reads log) {p : GateResolvedPayload} {at_ : Nat} :
    (derive log).preSeeded node = some (p, at_) ↔ Answered node log p at_ := by
  rw [preSeeded_eq h]
  unfold answer Answered
  rw [Register.held_of_plain]
  simp only [answerMove_set, answerMove_keep, and_assoc]

/-- The choice the register holds, where it runs the node again and nothing is asked. -/
theorem chosen_iff_held {option : ReservedOption} {at_ : Nat} :
    Chosen node log option at_ ↔
      (question node).held log = none ∧
        ∃ p, (choice node).held log = some (p, at_) ∧ again p = some option := by
  unfold Chosen
  refine and_congr_right fun _ => ?_
  simp only [Register.held_eq_some_iff, choice_set, choice_keep]
  constructor
  · rintro ⟨before, event, after, choice, hsplit, hat, hresolves, hof, hruns, htask, hacts, hlater⟩
    refine ⟨.chosen choice, ⟨before, event, after, hsplit, ⟨hat, hresolves, htask⟩, ?_⟩, ?_⟩
    · intro mid later rest hafter
      exact ⟨hacts later (by simp [hafter]), hlater mid later rest hafter⟩
    · simp [again, hof, hruns]
  · rintro ⟨p, ⟨before, event, after, hsplit, ⟨hat, hresolves, htask⟩, hkeep⟩, hagain⟩
    cases p with
    | chosen choice =>
      obtain ⟨hof, hruns⟩ := Option.filter_eq_some_iff.mp hagain
      refine ⟨before, event, after, choice, hsplit, hat, hresolves, hof, hruns, htask, ?_, ?_⟩
      · intro later hmem
        obtain ⟨mid, rest, hafter⟩ := List.append_of_mem hmem
        exact (hkeep mid later rest hafter).1
      · exact fun mid later rest hafter => (hkeep mid later rest hafter).2
    | _ => cases hagain

/-- **A choice to run the node again is seen from the resolution** up to what acts on it, and not
    while something is asked. -/
theorem runAgainChosen_iff (h : Reads log) {option : ReservedOption} :
    (derive log).runAgainChosen node = some option ↔ ∃ at_, Chosen node log option at_ := by
  simp only [runAgainChosen_eq h, chosen_iff_held]
  cases hasked : (question node).held log with
  | some asked => simp
  | none =>
    cases hheld : (choice node).held log with
    | none => simp
    | some resolution =>
      obtain ⟨p, at_⟩ := resolution
      simp

end

end Choices

end Yunta
