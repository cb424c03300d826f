/-
  Redelivering an artifact or a finding event changes nothing.

  Each of the two ledgers folds an event twice as it folds it once (`ArtifactLedger.apply_apply`,
  `FindingLedger.apply_apply`), and no other fact of the state reads either ledger.  What the two
  deliveries leave apart is the clock and the activity, which `Same` does not compare and which no
  fold reads: `Same` is a simulation, so the rest of the log derives the same facts from both.
-/
import Yunta.Replay.Refusal

set_option linter.unusedVariables false

namespace Yunta

namespace RunState

/-! ## `Same` is a simulation -/

namespace Same

theorem refl (s : RunState) : Same s s := by
  constructor <;> rfl

theorem trans {s t u : RunState} (h : Same s t) (h' : Same t u) : Same s u where
  run := h.run.trans h'.run
  nodes := h.nodes.trans h'.nodes
  degradations := h.degradations.trans h'.degradations
  tasks := h.tasks.trans h'.tasks
  grants := h.grants.trans h'.grants
  findings := h.findings.trans h'.findings
  artifacts := h.artifacts.trans h'.artifacts
  gates := h.gates.trans h'.gates
  children := h.children.trans h'.children
  unknownKinds := h.unknownKinds.trans h'.unknownKinds
  broken := h.broken.trans h'.broken
  preGate := h.preGate.trans h'.preGate
  tailPaused := h.tailPaused.trans h'.tailPaused

/-- Two states that are the same differ in the clock and the activity at most. -/
theorem eq_withClock {s t : RunState} (h : Same s t) : t = s.withClock t.clock t.activity := by
  cases s; cases t; cases h; simp_all [withClock]

end Same

theorem same_withClock (s : RunState) (clock : Timeline) (activity : Activity) :
    Same s (s.withClock clock activity) := by
  constructor <;> rfl

theorem same_refuse {s t : RunState} (h : Same s t) (event : StoredEvent) :
    t.refuse event = s.refuse event :=
  refuse_congr h.nodes.symm h.tasks.symm event

/-- No ledger reads the clock or the activity, so what a taken event derives is the same
    beside any others. -/
theorem taken_withClock {s : RunState} {event : StoredEvent} (clock : Timeline)
    (activity : Activity) (h : s.refuse event = .ok ()) :
    Same (s.taken event) ((s.withClock clock activity).taken event) := by
  have h' : (s.withClock clock activity).refuse event = .ok () :=
    (same_refuse (same_withClock s clock activity) event).trans h
  cases hp : event.payload with
  | none => rw [taken_unknown hp, taken_unknown hp]; constructor <;> rfl
  | some payload =>
    cases payload with
    | run e => rw [taken_run hp, taken_run hp]; constructor <;> rfl
    | node e => rw [taken_node hp, taken_node hp]; constructor <;> rfl
    | session e => rw [taken_session h hp, taken_session h' hp]; constructor <;> rfl
    | tasks e => rw [taken_task h hp, taken_task h' hp]; constructor <;> rfl
    | scope e => rw [taken_scope h hp, taken_scope h' hp]; constructor <;> rfl
    | findings e => rw [taken_finding hp, taken_finding hp]; constructor <;> rfl
    | artifacts e => rw [taken_artifact hp, taken_artifact hp]; constructor <;> rfl
    | gates e =>
      rw [taken_gate h hp, taken_gate h' hp, gateTransition_withClock]
      constructor <;> rfl
    | children e => rw [taken_child hp, taken_child hp]; constructor <;> rfl

theorem taken_same {s t : RunState} {event : StoredEvent} (hst : Same s t)
    (h : s.refuse event = .ok ()) : Same (s.taken event) (t.taken event) := by
  rw [hst.eq_withClock]
  exact taken_withClock t.clock t.activity h

/-! ## Redelivery -/

/-- Whether `event` is an artifact or a finding event. -/
def redelivers (event : StoredEvent) : Bool :=
  match event.payload with
  | some (.artifacts _) | some (.findings _) => true
  | _ => false

/-- An artifact or a finding event taken a second time leaves the facts the first left. -/
theorem taken_taken_same {s : RunState} {event : StoredEvent} (h : redelivers event = true) :
    Same (s.taken event) ((s.taken event).taken event) := by
  unfold redelivers at h
  split at h
  · next e hp =>
    rw [taken_artifact hp, taken_artifact hp]
    constructor <;> first | rfl | exact (ArtifactLedger.apply_apply ..).symm
  · next e hp =>
    rw [taken_finding hp, taken_finding hp]
    constructor <;> first | rfl | exact (FindingLedger.apply_apply ..).symm
  · cases h

/-- Such an event follows any state. -/
theorem refuse_redelivers (s : RunState) {event : StoredEvent} (h : redelivers event = true) :
    s.refuse event = .ok () := by
  unfold redelivers at h
  unfold refuse
  split at h
  · next e hp => rw [hp]
  · next e hp => rw [hp]
  · cases h

/-- `log` with each artifact and finding event at a chosen position delivered twice in a row. -/
def redeliver : (Nat → Bool) → List StoredEvent → List StoredEvent
  | _, [] => []
  | chosen, event :: rest =>
    (if chosen 0 && redelivers event then [event, event] else [event]) ++
      redeliver (fun at_ => chosen (at_ + 1)) rest

/-- A run takes its log with events redelivered, to the same facts. -/
theorem steps_redeliver {s s' : RunState} {log : List StoredEvent} (h : RunSteps s log s') :
    ∀ (chosen : Nat → Bool) (t : RunState), Same s t →
      ∃ t', RunSteps t (redeliver chosen log) t' ∧ Same s' t' := by
  induction h with
  | nil s => exact fun chosen t hst => ⟨t, .nil t, hst⟩
  | @cons s u s' event rest he _ ih =>
    intro chosen t hst
    obtain ⟨hr, rfl⟩ := apply_ok_iff.mp he
    have hfirst : t.apply event = (t.taken event, .ok ()) :=
      apply_ok_iff.mpr ⟨(same_refuse hst event).trans hr, rfl⟩
    have hsame := taken_same hst hr
    unfold redeliver
    by_cases hc : (chosen 0 && redelivers event) = true
    · rw [if_pos hc]
      have hred : redelivers event = true := (Bool.and_eq_true_iff.mp hc).2
      have hsecond : (t.taken event).apply event = ((t.taken event).taken event, .ok ()) :=
        apply_ok_iff.mpr ⟨refuse_redelivers _ hred, rfl⟩
      obtain ⟨t', hrest, hfinal⟩ :=
        ih (fun at_ => chosen (at_ + 1)) _ (hsame.trans (taken_taken_same hred))
      exact ⟨t', .cons hfirst (.cons hsecond hrest), hfinal⟩
    · rw [if_neg hc]
      obtain ⟨t', hrest, hfinal⟩ := ih (fun at_ => chosen (at_ + 1)) _ hsame
      exact ⟨t', .cons hfirst hrest, hfinal⟩

/-- **Redelivering any artifact and finding events of an accepted log changes no fact it
    derives.** -/
theorem redeliver_same {log : List StoredEvent} (h : Accepted log) (chosen : Nat → Bool) :
    Same (derive log) (derive (redeliver chosen log)) := by
  obtain ⟨t, hsteps, hsame⟩ :=
    steps_redeliver (steps_of_accepted h) chosen {} (Same.refl {})
  rw [derive_of_steps hsteps]
  exact hsame

/-- A finding posted and withdrawn and an artifact accepted, each delivered twice. -/
theorem redeliver_same_all :
    let posted : StoredEvent :=
      ⟨"", 1, 0, some "a", .known (.findings (.posted ⟨"f", .note, "late", "src"⟩))⟩
    let accepted : StoredEvent :=
      ⟨"", 2, 1, some "a", .known (.artifacts (.accepted ⟨.named "plan", "00", .submitted⟩))⟩
    let withdrawn : StoredEvent :=
      ⟨"", 3, 2, some "a", .known (.findings (.withdrawn ⟨"f", "fixed"⟩))⟩
    Same (derive [posted, accepted, withdrawn])
      (derive [posted, posted, accepted, accepted, withdrawn, withdrawn]) :=
  redeliver_same (show Accepted [_, _, _] by decide) fun _ => true

end RunState

end Yunta
