/-
  What a run has established never shrinks as its log grows.

  1. **Records** — no event of a node or of a session lowers a record's attempts
     (`NodeRecord.Grown`), and none of a task its attempts.

  2. **States** — `Grows` puts that order on every record of a state.  It is reflexive and
     transitive, and each taken event is in it.

  3. **Tokens** — what a state settled is the sum of what its events settled (`derive_settled`), so
     it grows as long as that sum does: while it fits a `u64`.

  4. **Findings** — a finding that stands goes on standing until its own node withdraws it.  An
     update keeps it standing, so the invariant `WellKeyed` is needed: a slot's finding carries the
     id of its key.
-/
import Yunta.Replay.Spend

set_option linter.unusedVariables false

namespace Yunta

/-! ## Records -/

/-- `r'` is `r` later: no fewer attempts. -/
def NodeRecord.Grown (r r' : NodeRecord) : Prop := r.attempts ≤ r'.attempts

namespace NodeRecord

theorem Grown.refl (r : NodeRecord) : Grown r r := Nat.le_refl _

theorem Grown.trans {r r' r'' : NodeRecord} (h : Grown r r') (h' : Grown r' r'') : Grown r r'' :=
  Nat.le_trans h h'

theorem closeWorking_grown (r : NodeRecord) (at_ : Int) (asleep : Suspensions) :
    Grown r (r.closeWorking at_ asleep) := by
  unfold closeWorking; split <;> exact Nat.le_refl _

theorem endAttempt_grown (r : NodeRecord) (tokens : TokenUsage) (m : EventMeta)
    (asleep : Suspensions) : Grown r (r.endAttempt tokens m asleep) :=
  closeWorking_grown { r with
    spend := ⟨r.spend.settled + tokens, {}⟩
    rework := if 1 < r.attempts then r.rework + tokens else r.rework
    attemptSettled := {} } m.at_ asleep

theorem onEvent_grown (r : NodeRecord) (event : NodeEvent) (m : EventMeta) (asleep : Suspensions) :
    Grown r (r.onEvent event m asleep) := by
  cases event with
  | started p => exact Nat.le_max_left _ _
  | finished p =>
    exact endAttempt_grown { r with lastEventAt := some m.at_ } p.tokensUsed m asleep
  | failed p =>
    exact endAttempt_grown { r with lastEventAt := some m.at_ } p.tokensUsed m asleep
  | _ => exact Nat.le_refl _

theorem ranOn_grown (r : NodeRecord) (model : Option ModelName) : Grown r (r.ranOn model) := by
  unfold ranOn
  split
  · split <;> exact Nat.le_refl _
  · exact .refl r

theorem onSession_grown (r : NodeRecord) (event : SessionEvent) (m : EventMeta) :
    Grown r (r.onSession event m) := by
  cases event with
  | opened p =>
    exact ranOn_grown ({ r with
      lastEventAt := some m.at_
      lastSession := if p.taskId.isNone then some p.sessionId else r.lastSession
      sessions := r.sessions ++ [⟨p.sessionId, p.agent, p.model, m.at_⟩] } : NodeRecord) p.model
  | railSummary p =>
    simp only [onSession, heardModel]
    split
    · split
      · exact ranOn_grown ({ r with
          lastEventAt := some m.at_
          sessions := setModel p.sessionId p.model r.sessions } : NodeRecord) p.model
      · exact Nat.le_refl _
    · exact Nat.le_refl _
  | message p =>
    simp only [onSession, message]
    split
    · exact Nat.le_refl _
    · split <;> exact Nat.le_refl _
    · exact Nat.le_refl _
  | _ => exact Nat.le_refl _

theorem resume_grown (r : NodeRecord) (at_ : Int) : Grown r (r.resume at_) := by
  unfold resume; split <;> exact Nat.le_refl _

end NodeRecord

/-! ## The nodes -/

namespace NodeLedger

/-- Every record of `l` is a record of `l'`, no smaller. -/
def Grows (l l' : NodeLedger) : Prop :=
  OrdMap.Grows NodeRecord.Grown l.perNode l'.perNode

theorem Grows.refl (l : NodeLedger) : Grows l l := OrdMap.Grows.refl NodeRecord.Grown.refl _

theorem Grows.trans {l l' l'' : NodeLedger} (h : Grows l l') (h' : Grows l' l'') : Grows l l'' :=
  OrdMap.Grows.trans (r := NodeRecord.Grown) NodeRecord.Grown.trans h h'

/-- A step that rewrites each record it finds by a later one grows the ledger. -/
theorem grows_of_get {l l' : NodeLedger}
    (h : ∀ a r, l.get a = some r → ∃ r', l'.get a = some r' ∧ r.Grown r') : Grows l l' := h

theorem apply_grows (l : NodeLedger) (event : NodeEvent) (m : EventMeta) (asleep : Suspensions) :
    Grows l (l.apply event m asleep) := by
  refine grows_of_get fun a r hr => ?_
  by_cases hm : m.node = some a
  · refine ⟨_, l.apply_get a hm asleep, ?_⟩
    rw [hr]
    exact r.onEvent_grown event m asleep
  · rcases l.apply_get_other a event hm asleep with h | ⟨r', hr', h⟩
    · exact ⟨r, h.trans hr, .refl r⟩
    · obtain rfl : r' = r := Option.some.inj (hr'.symm.trans hr)
      exact ⟨_, h, Nat.le_refl _⟩

theorem applySession_grows (l : NodeLedger) (event : SessionEvent) (m : EventMeta) :
    Grows l (l.applySession event m).1 := by
  refine grows_of_get fun a r hr => ?_
  rw [l.applySession_get, hr]
  split
  · exact ⟨_, rfl, r.onSession_grown event m⟩
  · exact ⟨r, rfl, .refl r⟩

theorem setState_grows (l : NodeLedger) (node : NodeId) (state : Option NodeState) :
    Grows l (l.setState node state) :=
  OrdMap.Grows.upsert NodeRecord.Grown.refl _ _ _ fun r => Nat.le_refl r.attempts

theorem stopWorking_grows (l : NodeLedger) (node : NodeId) (m : EventMeta) (asleep : Suspensions) :
    Grows l (l.stopWorking node m asleep) := by
  refine grows_of_get fun a r hr => ?_
  rw [l.get_stopWorking]
  split
  · next he => rw [he, hr]; exact ⟨_, rfl, r.closeWorking_grown _ _⟩
  · exact ⟨r, hr, .refl r⟩

theorem settleAsking_grows (l : NodeLedger) (node : NodeId) (asked : TokenUsage) (m : EventMeta)
    (asleep : Suspensions) : Grows l (l.settleAsking node asked m asleep) := by
  refine grows_of_get fun a r hr => ?_
  rw [l.get_settleAsking]
  split
  · next he =>
    rw [he, hr]
    exact ⟨_, rfl, (r.settleRound asked).closeWorking_grown _ _⟩
  · exact ⟨r, hr, .refl r⟩

theorem resumeWorking_grows (l : NodeLedger) (node : NodeId) (at_ : Int) :
    Grows l (l.resumeWorking node at_) := by
  refine grows_of_get fun a r hr => ?_
  rw [l.get_resumeWorking]
  split
  · next he => rw [he, hr]; exact ⟨_, rfl, r.resume_grown at_⟩
  · exact ⟨r, hr, .refl r⟩

end NodeLedger

/-! ## The tasks -/

/-- `r'` is `r` later: dispatched no fewer times. -/
def TaskRecord.Grown (r r' : TaskRecord) : Prop := r.attempts ≤ r'.attempts

theorem TaskRecord.Grown.refl (r : TaskRecord) : Grown r r := Nat.le_refl _

theorem TaskRecord.Grown.trans {r r' r'' : TaskRecord} (h : Grown r r') (h' : Grown r' r'') :
    Grown r r'' := Nat.le_trans h h'

namespace TaskLedger

/-- Every task of `l` is a task of `l'`, no smaller. -/
def Grows (l l' : TaskLedger) : Prop :=
  OrdMap.Grows TaskRecord.Grown l.perTask l'.perTask

theorem Grows.refl (l : TaskLedger) : Grows l l := OrdMap.Grows.refl TaskRecord.Grown.refl _

theorem Grows.trans {l l' l'' : TaskLedger} (h : Grows l l') (h' : Grows l' l'') : Grows l l'' :=
  OrdMap.Grows.trans (r := TaskRecord.Grown) TaskRecord.Grown.trans h h'

/-- Rewriting one task's record upward grows the ledger. -/
theorem insert_grows {l : TaskLedger} {task : TaskId} {r r' : TaskRecord} (h : l.get task = some r)
    (hle : r.Grown r') : OrdMap.Grows TaskRecord.Grown l.perTask (l.perTask.insert task r') := by
  intro a v hv
  rw [OrdMap.getElem?_insert_eq]
  split
  · next he =>
    subst he
    obtain rfl : v = r := Option.some.inj (hv.symm.trans h)
    exact ⟨r', rfl, hle⟩
  · exact ⟨v, hv, .refl v⟩

theorem withTask_grows (l : TaskLedger) (task : TaskId) {f : TaskRecord → TaskRecord}
    (hf : ∀ r : TaskRecord, r.Grown (f r)) : Grows l (l.withTask task f).1 := by
  unfold withTask
  cases hr : l.get task with
  | none => exact .refl l
  | some r => exact insert_grows hr (hf r)

theorem statusChanged_grown (r : TaskRecord) (p : TaskStatusChangedPayload) (m : EventMeta) :
    r.Grown (r.statusChanged p m) := by
  unfold TaskRecord.statusChanged TaskRecord.Grown
  dsimp only
  split <;> omega

theorem apply_grows (l : TaskLedger) (event : TaskEvent) (m : EventMeta) :
    Grows l (l.apply event m).1 := by
  cases event with
  | registered p => exact OrdMap.Grows.upsert TaskRecord.Grown.refl _ _ _ TaskRecord.Grown.refl
  | statusChanged p =>
    have h := l.withTask_grows p.taskId fun r => statusChanged_grown r p m
    unfold apply statusChanged
    dsimp only
    split
    · next hstep => rw [hstep] at h; exact h
    · next hstep => rw [hstep] at h; exact h
  | deviationDeclared p => exact l.withTask_grows p.taskId TaskRecord.Grown.refl
  | deviationResolved p => exact l.withTask_grows p.taskId TaskRecord.Grown.refl
  | _ => exact .refl l

theorem applyCriteria_grows (l : TaskLedger) (event : NodeEvent) : Grows l (l.applyCriteria event) := by
  cases event <;> exact Grows.refl l

theorem applySession_grows (l : TaskLedger) (event : SessionEvent) :
    Grows l (l.applySession event) := by
  unfold applySession
  split
  · split
    · split
      · next r hr => exact insert_grows hr (.refl r)
      · exact .refl l
    · exact .refl l
  · exact .refl l

end TaskLedger

/-! ## The findings -/

namespace FindingLedger

/-- Whether `event`, written under `node`, withdraws the finding under `key`. -/
def withdraws (key : FindingKey) (node : Option NodeId) : FindingEvent → Bool
  | .withdrawn p => key = (node, p.id)
  | _ => false

theorem isLive_iff {l : FindingLedger} {key : FindingKey} :
    l.isLive key = true ↔ ∃ finding, l.slots[key]? = some (.live finding) := by
  unfold isLive
  split
  · next finding h => simp [h]
  · next h => simpa using h

/-- A step that puts nothing but `value` under `key` leaves every other slot. -/
theorem slot_insert {slots : OrdMap FindingKey Slot} {key a : FindingKey} {value slot : Slot}
    (h : (slots.insert key value)[a]? = some slot) :
    key = a ∧ slot = value ∨ slots[a]? = some slot := by
  rw [OrdMap.getElem?_insert_eq] at h
  split at h
  · next he => exact Or.inl ⟨he, (Option.some.inj h).symm⟩
  · exact Or.inr h

/-- What an event leaves in the slots: a posted or updated finding under its own key, a withdrawn
    one, or what was there. -/
theorem apply_slots (l : FindingLedger) (node : Option NodeId) (event : FindingEvent) :
    (l.apply node event).slots = l.slots ∧ (l.apply node event).firstPost = l.firstPost ∨
      (∃ finding, (l.apply node event).slots = l.slots.insert (node, finding.id) (.live finding) ∧
        (l.apply node event).firstPost = l.firstPost ++ [(node, finding.id)]) ∨
      (∃ finding, l.isLive (node, finding.id) = true ∧
        (l.apply node event).slots = l.slots.insert (node, finding.id) (.live finding) ∧
        (l.apply node event).firstPost = l.firstPost) ∨
      ∃ p, event = .withdrawn p ∧
        (l.apply node event).slots = l.slots.insert (node, p.id) (.withdrawn p.reason) ∧
        (l.apply node event).firstPost = l.firstPost := by
  cases event with
  | posted finding =>
    simp only [apply]
    split
    · exact Or.inl ⟨rfl, rfl⟩
    · exact Or.inr (Or.inl ⟨finding, rfl, rfl⟩)
  | updated finding =>
    simp only [apply]
    split
    · next hl => exact Or.inr (Or.inr (Or.inl ⟨finding, hl, rfl, rfl⟩))
    · exact Or.inl ⟨rfl, rfl⟩
  | withdrawn p =>
    simp only [apply]
    split
    · exact Or.inr (Or.inr (Or.inr ⟨p, rfl, rfl, rfl⟩))
    · exact Or.inl ⟨rfl, rfl⟩
  | refused => exact Or.inl ⟨rfl, rfl⟩
  | answered p => simp only [apply, answered]; split <;> exact Or.inl ⟨rfl, rfl⟩
  | proved p => simp only [apply, proved]; split <;> exact Or.inl ⟨rfl, rfl⟩
  | settled p =>
    cases node with
    | none => exact Or.inl ⟨rfl, rfl⟩
    | some gate => simp only [apply]; split <;> exact Or.inl ⟨rfl, rfl⟩

theorem apply_wellKeyed {l : FindingLedger} (h : l.WellKeyed) (node : Option NodeId)
    (event : FindingEvent) : (l.apply node event).WellKeyed := by
  intro key finding hslot
  rcases l.apply_slots node event with ⟨hs, hf⟩ | ⟨f, hs, hf⟩ | ⟨f, hl, hs, hf⟩ | ⟨p, -, hs, hf⟩
  · rw [hs] at hslot
    rw [hf]
    exact h key finding hslot
  · rw [hs] at hslot
    rw [hf, List.mem_append]
    rcases slot_insert hslot with ⟨rfl, hv⟩ | hold
    · cases hv
      exact ⟨rfl, Or.inr (List.mem_singleton.mpr rfl)⟩
    · exact ⟨(h key finding hold).1, Or.inl (h key finding hold).2⟩
  · rw [hs] at hslot
    rw [hf]
    rcases slot_insert hslot with ⟨rfl, hv⟩ | hold
    · cases hv
      -- the update found the finding standing under the same key
      obtain ⟨g, hg⟩ := isLive_iff.mp hl
      exact ⟨rfl, (h _ g hg).2⟩
    · exact h key finding hold
  · rw [hs] at hslot
    rw [hf]
    rcases slot_insert hslot with ⟨-, hv⟩ | hold
    · cases hv
    · exact h key finding hold

/-- **A finding that stands goes on standing**, unless its own node withdraws it. -/
theorem apply_isLive {l : FindingLedger} {key : FindingKey} (h : l.isLive key = true)
    {node : Option NodeId} {event : FindingEvent} (hno : withdraws key node event = false) :
    (l.apply node event).isLive key = true := by
  obtain ⟨finding, hf⟩ := isLive_iff.mp h
  refine isLive_iff.mpr ?_
  have hinsert : ∀ (k : FindingKey) (g : Finding),
      ∃ f, (l.slots.insert k (.live g))[key]? = some (.live f) := by
    intro k g
    rw [OrdMap.getElem?_insert_eq]
    split
    · exact ⟨g, rfl⟩
    · exact ⟨finding, hf⟩
  rcases l.apply_slots node event with ⟨hs, -⟩ | ⟨f, hs, -⟩ | ⟨f, -, hs, -⟩ | ⟨p, rfl, hs, -⟩
  · rw [hs]; exact ⟨finding, hf⟩
  · rw [hs]; exact hinsert _ f
  · rw [hs]; exact hinsert _ f
  · have hne : ((node, p.id) : FindingKey) ≠ key := by
      intro he
      simp [withdraws, he] at hno
    rw [hs, OrdMap.getElem?_insert_eq, if_neg hne]
    exact ⟨finding, hf⟩

/-- A finding listed stands under the key of its node and its id, and the other way round. -/
theorem mem_effective {l : FindingLedger} (h : l.WellKeyed) {node : Option NodeId} {id : FindingId} :
    (∃ finding, finding.id = id ∧ (node, finding) ∈ l.effective) ↔ l.isLive (node, id) = true := by
  rw [isLive_iff]
  unfold effective
  constructor
  · rintro ⟨finding, rfl, hmem⟩
    obtain ⟨key, -, hkey⟩ := List.mem_filterMap.mp hmem
    split at hkey
    · next f hf =>
      obtain ⟨rfl, rfl⟩ := Prod.mk.inj (Option.some.inj hkey)
      rw [(h key f hf).1]
      exact ⟨f, hf⟩
    · cases hkey
  · rintro ⟨finding, hf⟩
    obtain ⟨hid, hpost⟩ := h _ _ hf
    exact ⟨finding, hid, List.mem_filterMap.mpr ⟨_, hpost, by simp [hf]⟩⟩

end FindingLedger

/-! ## States -/

namespace RunState

/-- What `t` establishes beyond `s`, and nothing less. -/
structure Grows (s t : RunState) : Prop where
  nodes : s.nodes.Grows t.nodes
  tasks : s.tasks.Grows t.tasks

theorem Grows.refl (s : RunState) : Grows s s := ⟨.refl _, .refl _⟩

theorem Grows.trans {s t u : RunState} (h : Grows s t) (h' : Grows t u) : Grows s u :=
  ⟨h.nodes.trans h'.nodes, h.tasks.trans h'.tasks⟩

theorem gateTransition_grows (s : RunState) (e : GateEvent) (event : StoredEvent) :
    s.nodes.Grows (s.gateTransition e event).1.nodes := by
  unfold gateTransition
  cases event.nodeId with
  | none => exact .refl _
  | some node =>
    cases e with
    | waiting p =>
      exact (s.nodes.setState_grows node _).trans (NodeLedger.stopWorking_grows _ node _ _)
    | resolved p =>
      dsimp only
      split
      · exact (s.nodes.setState_grows node _).trans (NodeLedger.resumeWorking_grows _ node _)
      · exact .refl _
    | questionsAsked round =>
      simp only [questionsAsked]
      split
      · exact .refl _
      · exact (s.nodes.settleAsking_grows node _ _ _).trans (NodeLedger.setState_grows _ node _)
    | questionsAnswered p =>
      exact (s.nodes.setState_grows node _).trans (NodeLedger.resumeWorking_grows _ node _)
    | askingOpened => exact s.nodes.stopWorking_grows node _ _

/-- **Every taken event grows the state.** -/
theorem taken_grows {s : RunState} {event : StoredEvent} (h : s.refuse event = .ok ()) :
    Grows s (s.taken event) := by
  cases hp : event.payload with
  | none => rw [taken_unknown hp]; exact ⟨.refl _, .refl _⟩
  | some payload =>
    cases payload with
    | run e => rw [taken_run hp]; exact ⟨.refl _, .refl _⟩
    | node e =>
      rw [taken_node hp]
      exact ⟨s.nodes.apply_grows e _ _, s.tasks.applyCriteria_grows e⟩
    | session e =>
      rw [taken_session h hp]
      exact ⟨s.nodes.applySession_grows e _, s.tasks.applySession_grows e⟩
    | tasks e => rw [taken_task h hp]; exact ⟨.refl _, s.tasks.apply_grows e _⟩
    | scope e => rw [taken_scope h hp]; exact ⟨.refl _, .refl _⟩
    | findings e => rw [taken_finding hp]; exact ⟨.refl _, .refl _⟩
    | artifacts e => rw [taken_artifact hp]; exact ⟨.refl _, .refl _⟩
    | gates e => rw [taken_gate h hp]; exact ⟨s.gateTransition_grows e event, .refl _⟩
    | children e => rw [taken_child hp]; exact ⟨.refl _, .refl _⟩

theorem steps_grows {s t : RunState} {log : List StoredEvent} (h : RunSteps s log t) : Grows s t := by
  refine Replay.Steps.preorder Grows.refl Grows.trans ?_ h
  intro s event t he
  obtain ⟨hr, rfl⟩ := apply_ok_iff.mp he
  exact taken_grows hr

/-! ## Findings along a run -/

/-- Whether `event` withdraws the finding `id` of `node`, written under that node itself. -/
def withdrawsFinding (node : Option NodeId) (id : FindingId) (event : StoredEvent) : Bool :=
  match event.payload with
  | some (.findings e) => FindingLedger.withdraws (node, id) event.nodeId e
  | _ => false

/-- Only finding events move the findings. -/
theorem taken_findings {s : RunState} {event : StoredEvent} (h : s.refuse event = .ok ()) :
    (s.taken event).findings =
      match event.payload with
      | some (.findings e) => s.findings.apply event.nodeId e
      | _ => s.findings := by
  cases hp : event.payload with
  | none => rw [taken_unknown hp]; rfl
  | some payload =>
    cases payload with
    | run e => rw [taken_run hp]; rfl
    | node e => rw [taken_node hp]; rfl
    | session e => rw [taken_session h hp]; rfl
    | tasks e => rw [taken_task h hp]; rfl
    | scope e => rw [taken_scope h hp]; rfl
    | findings e => rw [taken_finding hp]
    | artifacts e => rw [taken_artifact hp]; rfl
    | gates e => rw [taken_gate h hp]; rfl
    | children e => rw [taken_child hp]; rfl

theorem steps_wellKeyed {s t : RunState} {log : List StoredEvent} (h : RunSteps s log t)
    (hs : s.findings.WellKeyed) : t.findings.WellKeyed := by
  refine Replay.Steps.invariant (P := fun s => s.findings.WellKeyed) ?_ h hs
  intro s event t hs he
  obtain ⟨hr, rfl⟩ := apply_ok_iff.mp he
  rw [taken_findings hr]
  split
  · exact FindingLedger.apply_wellKeyed hs _ _
  · exact hs

theorem steps_stands {s t : RunState} {log : List StoredEvent} (h : RunSteps s log t)
    {node : Option NodeId} {id : FindingId} (hs : s.findings.isLive (node, id) = true)
    (hno : ∀ event ∈ log, withdrawsFinding node id event = false) :
    t.findings.isLive (node, id) = true := by
  refine Replay.Steps.invariant_mem (P := fun s => s.findings.isLive (node, id) = true) h ?_ hs
  intro s event t hmem hs he
  obtain ⟨hr, rfl⟩ := apply_ok_iff.mp he
  have hw := hno event hmem
  unfold withdrawsFinding at hw
  rw [taken_findings hr]
  split
  · next e hp =>
    rw [hp] at hw
    exact FindingLedger.apply_isLive hs hw
  · exact hs

/-- **What a prefix of an accepted log has established, the log has**: no fewer tokens settled
    where what the log settles fits a `u64`, every node and task with no fewer attempts, and every
    finding that stood, unless its own node withdrew it since. -/
theorem prefix_grows {before after : List StoredEvent} (h : Accepted (before ++ after)) :
    let s := derive before
    let t := derive (before ++ after)
    (TokenUsage.Fits ((before ++ after).map settledBy) → s.settled ≤ t.settled) ∧
      (∀ node r, s.nodes.get node = some r →
        ∃ r', t.nodes.get node = some r' ∧ r.attempts ≤ r'.attempts) ∧
      (∀ task r, s.tasks.get task = some r →
        ∃ r', t.tasks.get task = some r' ∧ r.attempts ≤ r'.attempts) ∧
      (∀ node finding, (node, finding) ∈ s.findings.effective →
        (∃ finding', finding'.id = finding.id ∧ (node, finding') ∈ t.findings.effective) ∨
          ∃ event ∈ after, withdrawsFinding node finding.id event = true) := by
  have hsettled : TokenUsage.Fits ((before ++ after).map settledBy) →
      (derive before).settled ≤ (derive (before ++ after)).settled := by
    intro hfits
    rw [derive_settled h, derive_settled (accepted_of_append h)]
    rw [List.map_append] at hfits ⊢
    exact TokenUsage.sum_le_sum_append hfits
  obtain ⟨s, hbefore, hafter⟩ := (steps_of_accepted h).split
  rw [derive_of_steps hbefore] at hsettled ⊢
  have hgrows := steps_grows hafter
  have hkeyed : s.findings.WellKeyed := steps_wellKeyed hbefore (fun _ _ hc => by simp at hc)
  refine ⟨hsettled, ?_, ?_, ?_⟩
  · intro node r hr
    exact hgrows.nodes node r hr
  · intro task r hr
    exact hgrows.tasks task r hr
  · intro node finding hmem
    by_cases hw : ∃ event ∈ after, withdrawsFinding node finding.id event = true
    · exact Or.inr hw
    · refine Or.inl ((FindingLedger.mem_effective (steps_wellKeyed hafter hkeyed)).mpr ?_)
      refine steps_stands hafter ((FindingLedger.mem_effective hkeyed).mp ⟨finding, rfl, hmem⟩) ?_
      intro event hevent
      by_contra hc
      exact hw ⟨event, hevent, by simpa using hc⟩

/-- A restart after a finish keeps what the first attempt settled. -/
theorem prefix_grows_restart :
    let finished : List StoredEvent :=
      [⟨"", 1, 0, some "a", .known (.node (.started ⟨1, none, none⟩))⟩,
        ⟨"", 2, 1, some "a", .known (.node (.finished ⟨.summary "", ⟨3, 4, none⟩, none⟩))⟩]
    (derive finished).settled ≤
      (derive (finished ++ [⟨"", 3, 2, some "a", .known (.node (.started ⟨2, none, none⟩))⟩])).settled :=
  (prefix_grows (by decide)).1 (by decide)

/-- After the first of the two terminals of `twiceLog` 2^63 tokens are settled, after both none. -/
theorem not_prefix_grows :
    ¬ ∀ before after : List StoredEvent, Accepted (before ++ after) →
      (derive before).settled ≤ (derive (before ++ after)).settled := by
  intro h
  have hsum := h (twiceLog.take 2) (twiceLog.drop 2) (by decide +kernel)
  revert hsum
  decide +kernel

end RunState

end Yunta
