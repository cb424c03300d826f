/-
  Which acceptance answers for a kind of document.

  1. **The readers** — `latest` (the loop's plan, the handover, the protected tests), `acceptedSpec`
     and respecify's `writer` each fold the log and take the last entry of `ofKind`, which lists one
     entry for each producer where that producer first accepted the kind.

  2. **The newest** — `acceptances` lists every acceptance of a kind a log states, overwritten or
     not, and `Newest` is the one with the greatest seq among them.

  3. **When they agree** — the readers answer the newest exactly when its producer was the last to
     accept the kind for the first time (`readsNewest_iff`): a producer that accepts again after
     another one joined is read over.
-/
import Yunta.Lib.Joined
import Yunta.Replay.Refusal
import Yunta.Workflow.Modes

set_option linter.unusedVariables false

namespace Yunta

namespace ArtifactRef

/-- What names the artifact in the store. -/
def held (ref : ArtifactRef) : Held := (ref.producer, ref.artifact)

def isOfKind (kind : ArtifactKind) (ref : ArtifactRef) : Bool :=
  decide (ref.artifact = .interpreted kind)

end ArtifactRef

/-! ## The ledger's readers -/

namespace ArtifactLedger

/-- Folds one event of a log, and ignores one about anything else. -/
def take (l : ArtifactLedger) (event : StoredEvent) : ArtifactLedger :=
  match event.payload with
  | some (.artifacts e) => l.apply event.nodeId event.seq e
  | _ => l

/-- Folds every event of `events`, in order. -/
def of (events : List StoredEvent) : ArtifactLedger := events.foldl take {}

/-- Every artifact of one interpreted kind, in first-acceptance order: one for each producer that
    accepted it. -/
def ofKind (l : ArtifactLedger) (kind : ArtifactKind) : List ArtifactRef :=
  l.every.filter (·.isOfKind kind)

end ArtifactLedger

/-- The acceptance whose document the run reads as the one it accepted last. -/
def latest (events : List StoredEvent) (kind : ArtifactKind) : Option ArtifactRef :=
  ((ArtifactLedger.of events).ofKind kind).getLast?

/-- The spec whose tests are approved. -/
def acceptedSpec (artifacts : ArtifactLedger) : Option ArtifactRef :=
  (artifacts.ofKind .spec).getLast?

/-- Whether a node opens a session of its own. -/
def NodeKind.isPrompt : NodeKind → Bool
  | .prompt => true
  | _ => false

section
variable (workflow : Workflow) (included : Option (List NodeId))

/-- The node an acceptance names to write its document again: its producer, when that one is a
    prompt the run's mode keeps. -/
def writerOf (held : Option ArtifactRef) : Option NodeId :=
  held.bind fun held => held.producer.bind fun producer =>
    let writes := workflow.iterNodes.any fun node => node.id = producer && node.kind.isPrompt
    if isIncluded included producer && writes then some producer else none

/-- The node that writes the run's spec again. -/
def writer (state : RunState) : Option NodeId :=
  writerOf workflow included (state.artifacts.ofKind .spec).getLast?

end

/-! ## What a log states -/

/-- The artifact an event states, if it states one. -/
def stated (event : StoredEvent) : Option ArtifactRef :=
  match event.payload with
  | some (.artifacts (.accepted p)) =>
    some ⟨event.nodeId, p.artifact, p.contentHash, p.origin, event.seq⟩
  | some (.artifacts (.written p)) =>
    some ⟨event.nodeId, legacyIdentity p, p.contentHash, .legacy, event.seq⟩
  | _ => none

/-- Every acceptance of a kind, in log order, those a later one replaced among them. -/
def acceptances (events : List StoredEvent) (kind : ArtifactKind) : List ArtifactRef :=
  (events.filterMap stated).filter (·.isOfKind kind)

/-- The acceptance with the greatest seq, over every producer; none when there is none. -/
def Newest (accepted : List ArtifactRef) : Option ArtifactRef → Prop
  | none => accepted = []
  | some ref => ref ∈ accepted ∧ ∀ other ∈ accepted, other.seq ≤ ref.seq

/-- No producer accepts the kind for the first time after the one that accepts it last did. -/
def NoneJoinsAfter (accepted : List ArtifactRef) : Prop :=
  ∀ ref ∈ accepted.getLast?, Joined.JoinedLast ArtifactRef.producer accepted ref.producer

/-- Every reader of `kind` answers the newest acceptance of it. -/
structure ReadsNewest (log : List StoredEvent) (kind : ArtifactKind) : Prop where
  latest : Newest (acceptances log kind) (latest log kind)
  spec : kind = .spec → Newest (acceptances log kind) (acceptedSpec (derive log).artifacts)
  writer : kind = .spec → ∃ newest, Newest (acceptances log kind) newest ∧
    ∀ workflow included, writer workflow included (derive log) = writerOf workflow included newest

/-! ## The ledger is the log's acceptances, read back by key -/

namespace ArtifactLedger

/-- A ledger that holds what a list of acceptances states. -/
structure Holds (l : ArtifactLedger) (stated : List ArtifactRef) : Prop where
  order : l.firstAccepted = Joined.order ArtifactRef.held stated
  current : ∀ k : Held, l.current[k]? = Joined.lastOf ArtifactRef.held stated k

theorem Holds.hold {l : ArtifactLedger} {accepted : List ArtifactRef} (h : l.Holds accepted)
    (ref : ArtifactRef) : (l.hold ref).Holds (accepted ++ [ref]) := by
  have hcontains : l.current.contains ref.held = true ↔
      ∃ other ∈ accepted, other.held = ref.held := by
    rw [Std.ExtTreeMap.contains_eq_isSome_getElem?, h.current, Joined.lastOf_isSome]
  constructor
  · show (if l.current.contains ref.held then l.firstAccepted
      else l.firstAccepted ++ [ref.held]) = _
    by_cases hmem : ∃ other ∈ accepted, other.held = ref.held
    · rw [if_pos (hcontains.mpr hmem), h.order, Joined.order_snoc_of_mem _ hmem]
    · rw [if_neg (fun hc => hmem (hcontains.mp hc)), h.order, Joined.order_snoc_of_new _ hmem]
  · intro k
    show (l.current.insert ref.held ref)[k]? = _
    rw [OrdMap.getElem?_insert_eq, Joined.lastOf_snoc, h.current]

/-- **One event leaves the ledger holding what it states besides.** -/
theorem Holds.take {l : ArtifactLedger} {accepted : List ArtifactRef} (h : l.Holds accepted)
    (event : StoredEvent) : (l.take event).Holds (accepted ++ (stated event).toList) := by
  unfold ArtifactLedger.take stated
  rcases event.payload with _ | payload
  · simpa using h
  · cases payload with
    | artifacts e =>
      cases e with
      | accepted p => exact h.hold _
      | written p => exact h.hold _
      | submitted p =>
        -- a hand-over is counted, and states nothing
        rw [Option.toList_none, List.append_nil]
        cases event.nodeId with
        | none => exact h
        | some node => exact ⟨h.order, h.current⟩
    | _ => simpa using h

theorem of_holds (events : List StoredEvent) : (of events).Holds (events.filterMap stated) := by
  have hfold : ∀ (events : List StoredEvent) (l : ArtifactLedger) (accepted : List ArtifactRef),
      l.Holds accepted →
      (events.foldl ArtifactLedger.take l).Holds (accepted ++ events.filterMap stated) := by
    intro events
    induction events with
    | nil =>
      intro l accepted h
      simpa using h
    | cons event rest ih =>
      intro l accepted h
      have hsplit : accepted ++ (event :: rest).filterMap stated =
          (accepted ++ (stated event).toList) ++ rest.filterMap stated := by
        cases hs : stated event with
        | none => simp [hs]
        | some ref => simp [hs]
      rw [hsplit, List.foldl_cons]
      exact ih _ _ (h.take event)
  exact hfold events {} [] ⟨rfl, fun k => by simp [Joined.lastOf]⟩

/-- **A kind's entries are its acceptances, read back by producer.** -/
theorem Holds.ofKind {l : ArtifactLedger} {accepted : List ArtifactRef} (h : l.Holds accepted)
    (kind : ArtifactKind) :
    l.ofKind kind = Joined.readback ArtifactRef.held (accepted.filter (·.isOfKind kind)) := by
  have hevery : l.every = Joined.readback ArtifactRef.held accepted := by
    unfold every Joined.readback
    rw [h.order]
    exact List.filterMap_congr fun k _ => h.current k
  rw [ArtifactLedger.ofKind, hevery]
  exact (Joined.readback_filter ArtifactRef.held
    (fun k => decide (k.2 = .interpreted kind)) accepted).symm

end ArtifactLedger

/-- Only artifact events move the artifacts. -/
theorem RunState.taken_artifacts {s : RunState} {event : StoredEvent}
    (h : s.refuse event = .ok ()) : (s.taken event).artifacts = s.artifacts.take event := by
  unfold ArtifactLedger.take
  cases hp : event.payload with
  | none => rw [taken_unknown hp]; rfl
  | some payload =>
    cases payload with
    | run e => rw [taken_run hp]; rfl
    | node e => rw [taken_node hp]; rfl
    | session e => rw [taken_session h hp]; rfl
    | tasks e => rw [taken_task h hp]; rfl
    | scope e => rw [taken_scope h hp]; rfl
    | findings e => rw [taken_finding hp]; rfl
    | artifacts e => rw [taken_artifact hp]
    | gates e => rw [taken_gate h hp]; rfl
    | children e => rw [taken_child hp]; rfl

/-- **An accepted log's state holds the artifacts its events fold to.** -/
theorem derive_artifacts {log : List StoredEvent} (h : Accepted log) :
    (derive log).artifacts = ArtifactLedger.of log := by
  have hsteps : ∀ (log : List StoredEvent) (s s' : RunState), RunSteps s log s' →
      s'.artifacts = log.foldl ArtifactLedger.take s.artifacts := by
    intro log
    induction log with
    | nil =>
      intro s s' hsteps
      rw [Replay.Steps.nil_inv hsteps]
      rfl
    | cons event rest ih =>
      intro s s' hsteps
      obtain ⟨t, he, hrest⟩ := Replay.Steps.cons_inv hsteps
      obtain ⟨hr, rfl⟩ := RunState.apply_ok_iff.mp he
      rw [ih _ _ hrest, List.foldl_cons, RunState.taken_artifacts hr]
  exact hsteps log {} _ (RunState.steps_of_accepted h)

/-! ## When the readers answer the newest -/

/-- **Over rising seqs the newest acceptance is the last one.** -/
theorem newest_iff {accepted : List ArtifactRef}
    (hseq : (accepted.map (·.seq)).Pairwise (· < ·)) (o : Option ArtifactRef) :
    Newest accepted o ↔ o = accepted.getLast? := by
  rcases List.eq_nil_or_concat accepted with rfl | ⟨init, last, rfl⟩
  · cases o with
    | none => simp [Newest]
    | some ref => simp [Newest]
  · rw [List.concat_eq_append] at hseq ⊢
    have hbelow : ∀ other ∈ init, other.seq < last.seq := by
      intro other hother
      rw [List.map_append, List.pairwise_append] at hseq
      exact hseq.2.2 _ (List.mem_map_of_mem hother) _ (by simp)
    cases o with
    | none => simp [Newest]
    | some ref =>
      constructor
      · rintro ⟨hmem, hmax⟩
        have hle := hmax last (by simp)
        rcases List.mem_append.mp hmem with hinit | hlast
        · have := hbelow ref hinit
          omega
        · simpa using hlast
      · intro h
        obtain rfl : ref = last := by simpa using h
        refine ⟨by simp, ?_⟩
        intro other hother
        rcases List.mem_append.mp hother with hinit | hlast
        · have := hbelow other hinit
          omega
        · rw [List.mem_singleton.mp hlast]

/-- Acceptances of one kind are told apart by their producers. -/
theorem joinedLast_held {accepted : List ArtifactRef} {kind : ArtifactKind}
    (hkind : ∀ ref ∈ accepted, ref.artifact = .interpreted kind) {ref : ArtifactRef}
    (href : ref ∈ accepted) :
    Joined.JoinedLast ArtifactRef.held accepted ref.held ↔
      Joined.JoinedLast ArtifactRef.producer accepted ref.producer := by
  have heq : ∀ a ∈ accepted, ∀ b ∈ accepted, a.held = b.held ↔ a.producer = b.producer := by
    intro a ha b hb
    simp [ArtifactRef.held, hkind a ha, hkind b hb]
  constructor
  · rintro ⟨before, own, after, rfl, hown, hbefore, hafter⟩
    refine ⟨before, own, after, rfl, (heq own (by simp) ref href).mp hown, ?_, ?_⟩
    · intro e he hp
      exact hbefore e he ((heq e (by simp [he]) ref href).mpr hp)
    · intro e he
      rcases hafter e he with h | ⟨earlier, hearlier, h⟩
      · exact .inl ((heq e (by simp [he]) ref href).mp h)
      · exact .inr ⟨earlier, hearlier, (heq earlier (by simp [hearlier]) e (by simp [he])).mp h⟩
  · rintro ⟨before, own, after, rfl, hown, hbefore, hafter⟩
    refine ⟨before, own, after, rfl, (heq own (by simp) ref href).mpr hown, ?_, ?_⟩
    · intro e he hp
      exact hbefore e he ((heq e (by simp [he]) ref href).mp hp)
    · intro e he
      rcases hafter e he with h | ⟨earlier, hearlier, h⟩
      · exact .inl ((heq e (by simp [he]) ref href).mpr h)
      · exact .inr ⟨earlier, hearlier, (heq earlier (by simp [hearlier]) e (by simp [he])).mpr h⟩

/-- What the last entry of a kind is, against the last acceptance of it. -/
theorem ofKind_getLast {l : ArtifactLedger} {log : List StoredEvent}
    (h : l.Holds (log.filterMap stated)) (kind : ArtifactKind) :
    (l.ofKind kind).getLast? = (acceptances log kind).getLast? ↔
      NoneJoinsAfter (acceptances log kind) := by
  rw [h.ofKind]
  show (Joined.readback ArtifactRef.held (acceptances log kind)).getLast? = _ ↔ _
  unfold NoneJoinsAfter
  cases hlast : (acceptances log kind).getLast? with
  | none =>
    rw [List.getLast?_eq_none_iff] at hlast
    simp [hlast, Joined.readback, Joined.order, Saturate.addAll]
  | some ref =>
    have hkind : ∀ ref ∈ acceptances log kind, ref.artifact = .interpreted kind := by
      intro ref href
      exact of_decide_eq_true (List.mem_filter.mp href).2
    rw [Joined.readback_getLast ArtifactRef.held hlast,
      joinedLast_held hkind (List.mem_of_getLast? hlast)]
    simp

/-- What a log of rising seqs states rises with it. -/
theorem stated_rising {log : List StoredEvent} (hseq : log.Pairwise fun a b => a.seq < b.seq) :
    (log.filterMap stated).Pairwise fun a b => a.seq < b.seq := by
  have hstated : ∀ event ref, stated event = some ref → ref.seq = event.seq := by
    intro event ref h
    unfold stated at h
    split at h
    · cases h
      rfl
    · cases h
      rfl
    · cases h
  rw [List.pairwise_filterMap]
  refine hseq.imp ?_
  intro a b hab ra hra rb hrb
  rw [hstated a ra hra, hstated b rb hrb]
  exact hab

theorem acceptances_rising {log : List StoredEvent}
    (hseq : log.Pairwise fun a b => a.seq < b.seq) (kind : ArtifactKind) :
    ((acceptances log kind).map (·.seq)).Pairwise (· < ·) :=
  List.pairwise_map.mpr ((stated_rising hseq).filter _)

/-- **The readers of a kind answer the newest acceptance of it exactly when no producer joined
    after the one that accepted last**, over every accepted log. -/
theorem readsNewest_iff (log : List StoredEvent) (haccepted : Accepted log)
    (hseq : log.Pairwise fun a b => a.seq < b.seq) (kind : ArtifactKind) :
    ReadsNewest log kind ↔ NoneJoinsAfter (acceptances log kind) := by
  have hnewest := newest_iff (acceptances_rising hseq kind)
  have hlast := ofKind_getLast (ArtifactLedger.of_holds log) kind
  constructor
  · intro h
    exact hlast.mp ((hnewest _).mp h.latest)
  · intro h
    have hread := hlast.mpr h
    have hderived : ((derive log).artifacts.ofKind kind).getLast? =
        (acceptances log kind).getLast? := by
      rw [derive_artifacts haccepted]
      exact hread
    refine ⟨(hnewest _).mpr hread, ?_, ?_⟩
    · rintro rfl
      exact (hnewest _).mpr hderived
    · rintro rfl
      refine ⟨_, (hnewest _).mpr rfl, ?_⟩
      intro workflow included
      rw [writer, hderived]

/-- An acceptance of a spec. -/
def acceptsSpec (seq : Nat) (node : NodeId) (hash : ContentHash) : StoredEvent :=
  ⟨"", seq, 0, some node, .known (.artifacts (.accepted ⟨.interpreted .spec, hash, .ingested⟩))⟩

/-- Two nodes write the spec, and the first writes it again. -/
def rewrittenSpec : List StoredEvent :=
  [acceptsSpec 1 "spec" "a", acceptsSpec 2 "amend" "b", acceptsSpec 3 "spec" "c"]

/-- The node that joined first writes last: its spec is read over. -/
theorem readsNewest_iff_rewritten :
    Accepted rewrittenSpec ∧
      (ReadsNewest rewrittenSpec .spec ↔ NoneJoinsAfter (acceptances rewrittenSpec .spec)) :=
  ⟨by decide, readsNewest_iff rewrittenSpec (by decide) (by decide) .spec⟩

/-- **A spec accepted again is not the one read**, when another node accepted one between. -/
theorem not_readsNewest :
    ¬ ∀ log : List StoredEvent, Accepted log → (log.Pairwise fun a b => a.seq < b.seq) →
      ∀ kind, ReadsNewest log kind := by
  intro h
  have hread := (h rewrittenSpec (by decide) (by decide) .spec).latest
  have hlatest : latest rewrittenSpec .spec =
      some ⟨some "amend", .interpreted .spec, "b", .ingested, 2⟩ := by decide
  rw [hlatest] at hread
  have hle := hread.2 ⟨some "spec", .interpreted .spec, "c", .ingested, 3⟩ (by decide)
  exact absurd hle (by decide)

end Yunta
