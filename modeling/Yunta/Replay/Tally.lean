/-
  What the node ledger counts is what its records say.

  1. **What is counted** — `NodeLedger.Tallied`: the tally's three counts are the records with an
     attempt open, with their session unreachable, and with both.  `checkedTake` is the tally's
     subtraction as unsigned numbers make it: it fails below zero.

  2. **One bracket** — `touch` reads the standing of one record before and after, and keeps the
     counts whatever it does to the record (`Tallied.touch`); every other way a ledger moves leaves
     each record standing as it did.

  3. **Every log** — `derive_tallied`: the counts hold in every state a log derives, and no
     subtraction of the event after it goes below zero.
-/
import Yunta.Replay.Refusal

set_option linter.unusedVariables false

namespace Yunta

/-! ## What is counted -/

namespace Tally

/-- `take`, where each count holds what it takes out; `none` where one would go below zero. -/
def checkedTake (t : Tally) (s : Standing) : Option Tally :=
  if s.open_.toNat ≤ t.open_ ∧ s.offline.toNat ≤ t.offline ∧
      (s.open_ && s.offline).toNat ≤ t.openOffline then
    some (t.take s)
  else none

end Tally

namespace NodeRecord

def isOpen (r : NodeRecord) : Bool := r.openSince.isSome

def isOpenOffline (r : NodeRecord) : Bool := r.openSince.isSome && r.unreachable

end NodeRecord

namespace NodeLedger

/-- The counts are the records each is of. -/
structure Tallied (l : NodeLedger) : Prop where
  open_ : l.tally.open_ = l.values.countP NodeRecord.isOpen
  offline : l.tally.offline = l.values.countP NodeRecord.unreachable
  openOffline : l.tally.openOffline = l.values.countP NodeRecord.isOpenOffline

/-- No subtraction of an event that rewrites `node`'s record by `f` goes below zero. -/
def TakesWithin (l : NodeLedger) (node : NodeId) (f : NodeRecord → NodeRecord) : Prop :=
  let record := (l.get node).getD {}
  (l.tally.add (f record).standing).checkedTake record.standing = some (l.touch node f).tally

/-! ## One bracket -/

section
variable {l : NodeLedger}

/-- What a record adds to a count, and nothing where there is no record yet. -/
theorem any_getD {p : NodeRecord → Bool} (hp : p {} = false) (o : Option NodeRecord) :
    o.any p = p (o.getD {}) := by
  cases o with
  | none => exact hp.symm
  | some r => rfl

/-- **One record written** moves a count by what the record was, which was counted, and what it
    is. -/
theorem count_touch {p : NodeRecord → Bool} (hp : p {} = false) (node : NodeId)
    (f : NodeRecord → NodeRecord) :
    (p ((l.get node).getD {})).toNat ≤ l.values.countP p ∧
      (l.touch node f).values.countP p =
        l.values.countP p + (p (f ((l.get node).getD {}))).toNat -
          (p ((l.get node).getD {})).toNat := by
  have hheld : (l.perNode[node]?).any p = p ((l.get node).getD {}) := any_getD hp _
  have hinsert := OrdMap.countBy_insert p l.perNode node (f ((l.get node).getD {}))
  have hbefore := OrdMap.countBy_eq_filter p l.perNode node
  rw [hheld] at hinsert hbefore
  show _ ≤ OrdMap.countBy p l.perNode ∧ OrdMap.countBy p (l.perNode.insert node _) =
    OrdMap.countBy p l.perNode + _ - _
  omega

/-- **Whatever an event does to one record, the counts follow it.** -/
theorem Tallied.touch (h : l.Tallied) (node : NodeId) (f : NodeRecord → NodeRecord) :
    (l.touch node f).Tallied ∧ l.TakesWithin node f := by
  obtain ⟨hopen, hopen'⟩ := count_touch (l := l) (p := NodeRecord.isOpen) rfl node f
  obtain ⟨hoffline, hoffline'⟩ := count_touch (l := l) (p := NodeRecord.unreachable) rfl node f
  obtain ⟨hboth, hboth'⟩ := count_touch (l := l) (p := NodeRecord.isOpenOffline) rfl node f
  rw [← h.open_] at hopen hopen'
  rw [← h.offline] at hoffline hoffline'
  rw [← h.openOffline] at hboth hboth'
  refine ⟨⟨hopen'.symm, hoffline'.symm, hboth'.symm⟩, if_pos ⟨?_, ?_, ?_⟩⟩
  · exact hopen.trans (Nat.le_add_right _ _)
  · exact hoffline.trans (Nat.le_add_right _ _)
  · exact hboth.trans (Nat.le_add_right _ _)

/-- A record rewritten to one that stands as it did leaves every count. -/
theorem Tallied.rewrite (h : l.Tallied) (node : NodeId) {r : NodeRecord}
    (hr : r.standing = ((l.get node).getD {}).standing) :
    ({ l with perNode := l.perNode.insert node r } : NodeLedger).Tallied := by
  have hcount : ∀ p : NodeRecord → Bool, p {} = false → p r = p ((l.get node).getD {}) →
      OrdMap.countBy p (l.perNode.insert node r) = OrdMap.countBy p l.perNode := by
    intro p hp hsame
    have hinsert := OrdMap.countBy_insert p l.perNode node r
    have hheld : (l.perNode[node]?).any p = p r := (any_getD hp _).trans hsame.symm
    rw [hheld] at hinsert
    omega
  obtain ⟨hopen, hoffline⟩ := Standing.mk.inj hr
  refine ⟨h.open_.trans (hcount _ rfl hopen).symm, h.offline.trans (hcount _ rfl hoffline).symm,
    h.openOffline.trans (hcount _ rfl ?_).symm⟩
  show (r.openSince.isSome && r.unreachable) = _
  rw [hopen, hoffline]
  rfl

/-- A close that moved the tree marks records, and moves none of them. -/
theorem Tallied.movedBeside (h : l.Tallied) (writer : NodeId) (left : TreeId) :
    (l.movedBeside writer left).Tallied := by
  unfold NodeLedger.movedBeside
  split
  · exact h
  · split
    · split
      · exact h
      · next record _ _ started _ _ _ =>
        have hcount : ∀ p : NodeRecord → Bool,
            (∀ r : NodeRecord, p { r with treeMoved := true } = p r) →
            OrdMap.countBy p (l.perNode.map fun id beside =>
              if id ≠ writer ∧ overlapped started left beside then
                { beside with treeMoved := true }
              else beside) = OrdMap.countBy p l.perNode := by
          intro p hp
          refine OrdMap.countBy_map (fun id beside => ?_) l.perNode
          split
          · exact hp beside
          · rfl
        exact ⟨h.open_.trans (hcount _ fun _ => rfl).symm,
          h.offline.trans (hcount _ fun _ => rfl).symm,
          h.openOffline.trans (hcount _ fun _ => rfl).symm⟩
    · exact h

/-! ## Every way a ledger moves -/

@[simp] theorem closeWorking_standing (r : NodeRecord) (at_ : Int) (asleep : Suspensions) :
    (r.closeWorking at_ asleep).standing = r.standing := by
  unfold NodeRecord.closeWorking
  split <;> rfl

@[simp] theorem resume_standing (r : NodeRecord) (at_ : Int) :
    (r.resume at_).standing = r.standing := by
  unfold NodeRecord.resume
  split <;> rfl

theorem Tallied.apply (h : l.Tallied) (event : NodeEvent) (m : EventMeta) (asleep : Suspensions) :
    (l.apply event m asleep).Tallied := by
  unfold NodeLedger.apply
  split
  · exact h
  · next node _ =>
    have htouch := (h.touch node fun r => r.onEvent event m asleep).1
    split
    · exact htouch.movedBeside node _
    · exact htouch

theorem Tallied.applySession (h : l.Tallied) (event : SessionEvent) (m : EventMeta) :
    (l.applySession event m).1.Tallied := by
  unfold NodeLedger.applySession
  split
  · exact h
  · next node _ => exact (h.touch node fun r => r.onSession event m).1

theorem Tallied.setState (h : l.Tallied) (node : NodeId) (state : Option NodeState) :
    (l.setState node state).Tallied :=
  h.rewrite node rfl

theorem Tallied.stopWorking (h : l.Tallied) (node : NodeId) (m : EventMeta)
    (asleep : Suspensions) : (l.stopWorking node m asleep).Tallied := by
  unfold NodeLedger.stopWorking
  split
  · exact h
  · next r hr => exact h.rewrite node (by rw [hr]; exact closeWorking_standing r _ _)

theorem Tallied.settleAsking (h : l.Tallied) (node : NodeId) (asked : TokenUsage) (m : EventMeta)
    (asleep : Suspensions) : (l.settleAsking node asked m asleep).Tallied := by
  have hsettled := h.rewrite node (r := ((l.get node).getD {}).settleRound asked) rfl
  exact hsettled.stopWorking node m asleep

theorem Tallied.resumeWorking (h : l.Tallied) (node : NodeId) (at_ : Int) :
    (l.resumeWorking node at_).Tallied := by
  unfold NodeLedger.resumeWorking
  split
  · exact h
  · next r hr => exact h.rewrite node (by rw [hr]; exact resume_standing r _)

end

end NodeLedger

/-! ## Every log -/

namespace RunState

theorem park_tallied {s : RunState} (h : s.nodes.Tallied) (node : NodeId) (on : NodeWait) :
    (s.park node on).nodes.Tallied :=
  h.setState node _

theorem unpark_tallied {s : RunState} (h : s.nodes.Tallied) (node : NodeId) (at_ : Int) :
    (s.unpark node at_).nodes.Tallied :=
  (h.setState node _).resumeWorking node at_

theorem gateTransition_tallied {s : RunState} (h : s.nodes.Tallied) (e : GateEvent)
    (event : StoredEvent) : (s.gateTransition e event).1.nodes.Tallied := by
  unfold gateTransition
  cases event.nodeId with
  | none => exact h
  | some node =>
    cases e with
    | waiting p => exact (park_tallied h node _).stopWorking node _ _
    | resolved p =>
      show (if s.isWaiting node then s.unpark node event.timestamp else s).nodes.Tallied
      split
      · exact unpark_tallied h node _
      · exact h
    | questionsAsked round =>
      show (s.questionsAsked node round event).1.nodes.Tallied
      unfold questionsAsked
      split
      · exact h
      · exact (h.settleAsking node _ _ _).setState node _
    | questionsAnswered p => exact unpark_tallied h node _
    | askingOpened => exact h.stopWorking node _ _

/-- **A taken event keeps the counts.** -/
theorem taken_tallied {s : RunState} {event : StoredEvent} (h : s.nodes.Tallied)
    (hr : s.refuse event = .ok ()) : (s.taken event).nodes.Tallied := by
  cases hp : event.payload with
  | none => rw [taken_unknown hp]; exact h
  | some payload =>
    cases payload with
    | run e => rw [taken_run hp]; exact h
    | node e => rw [taken_node hp]; exact h.apply e _ _
    | session e => rw [taken_session hr hp]; exact h.applySession e _
    | tasks e => rw [taken_task hr hp]; exact h
    | scope e => rw [taken_scope hr hp]; exact h
    | findings e => rw [taken_finding hp]; exact h
    | artifacts e => rw [taken_artifact hp]; exact h
    | gates e => rw [taken_gate hr hp]; exact gateTransition_tallied h e event
    | children e => rw [taken_child hp]; exact h

/-- What every taken event keeps, and no mark of a refused one moves, holds of what any log
    derives. -/
theorem deriveFrom_invariant {P : RunState → Prop}
    (hstep : ∀ s event, P s → s.refuse event = .ok () → P (s.taken event))
    (hbroken : ∀ s text, P s → P { s with broken := some text }) (log : List StoredEvent)
    {s : RunState} (h : P s) : P (deriveFrom s log) := by
  induction log generalizing s with
  | nil => exact h
  | cons event rest ih =>
    unfold deriveFrom
    rw [apply_eq]
    cases hr : s.refuse event with
    | error err => exact hbroken s _ h
    | ok _ => exact ih (hstep s event h hr)

end RunState

/-- As many records are open and offline as are open when every open one is offline. -/
theorem countP_open_offline (records : List NodeRecord) :
    records.countP NodeRecord.isOpenOffline = records.countP NodeRecord.isOpen ↔
      ∀ r ∈ records, r.isOpen = true → r.unreachable = true := by
  have hboth : records.countP NodeRecord.isOpenOffline =
      (records.filter NodeRecord.isOpen).countP NodeRecord.unreachable := by
    rw [List.countP_filter]
    exact List.countP_congr fun r _ => by rw [NodeRecord.isOpenOffline, Bool.and_comm]; rfl
  rw [hboth, List.countP_eq_length_filter (p := NodeRecord.isOpen), List.countP_eq_length]
  constructor
  · intro h r hr hopen
    exact h r (List.mem_filter.mpr ⟨hr, hopen⟩)
  · intro h r hr
    exact h r (List.mem_filter.mp hr).1 (List.mem_filter.mp hr).2

/-- **The tally of every log is its records counted**: the nodes attempting and the attempts offline
    are those whose records say so, and whatever the next event makes of a record, no subtraction
    goes below zero. -/
theorem derive_tallied (log : List StoredEvent) :
    (derive log).nodes.Tallied ∧
      ((derive log).nodes.attempting = true ↔ ∃ r ∈ (derive log).nodes.values, r.isOpen = true) ∧
      ((derive log).nodes.attemptsOffline = true ↔
        (∃ r ∈ (derive log).nodes.values, r.unreachable = true) ∧
          ∀ r ∈ (derive log).nodes.values, r.isOpen = true → r.unreachable = true) ∧
      ∀ node f, (derive log).nodes.TakesWithin node f := by
  have hstart : ({} : NodeLedger).Tallied := ⟨rfl, rfl, rfl⟩
  have h : (derive log).nodes.Tallied :=
    RunState.deriveFrom_invariant (P := fun s => s.nodes.Tallied)
      (fun s event h hr => RunState.taken_tallied h hr) (fun s text h => h) log hstart
  refine ⟨h, ?_, ?_, fun node f => (h.touch node f).2⟩
  · rw [NodeLedger.attempting, decide_eq_true_iff, h.open_, List.countP_pos_iff]
  · rw [NodeLedger.attemptsOffline, Bool.and_eq_true, decide_eq_true_iff, beq_iff_eq, h.offline,
      h.openOffline, h.open_, List.countP_pos_iff, countP_open_offline]

end Yunta
