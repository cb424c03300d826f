/-
  What sessions reported and what became of it: each finding under the node that posted it, the
  answers other nodes gave it, the proof one ran, and how it was settled.

  A slot is keyed by the posting node and the finding's id.  A withdrawn slot stays withdrawn; an
  update or a withdrawal of a live one forgets every answer, proof and settlement it had.

  `apply_apply` is the ledger's own half of redelivery: folding an event twice is folding it once,
  in any state of the ledger.
-/
import Yunta.Ledgers.Run

set_option linter.unusedVariables false

namespace Yunta

/-- A finding's place in the ledger: the node that posted it, and its id. -/
abbrev FindingKey := Option NodeId × FindingId

structure AnswerGiven where
  by_ : Option NodeId
  answer : FindingAnswer
  why : String
  deriving DecidableEq

structure Proof where
  by_ : Option NodeId
  cmd : String
  exitCode : Int
  deriving DecidableEq

inductive Settled where
  | proof (cmd : String)
  | person (gate : NodeId)
  deriving DecidableEq

/-- A posted finding as it stands, or the reason it was withdrawn for. -/
inductive Slot where
  | live (finding : Finding)
  | withdrawn (reason : String)
  deriving DecidableEq

structure FindingLedger where
  slots : OrdMap FindingKey Slot := ∅
  /-- The order each finding was first posted in. -/
  firstPost : List FindingKey := []
  answers : OrdMap FindingKey (List AnswerGiven) := ∅
  proofs : OrdMap FindingKey Proof := ∅
  settled : OrdMap FindingKey Settled := ∅
  deriving DecidableEq

/-- Writes `given` over the answer its node gave before, or adds it last. -/
def putAnswer (given : AnswerGiven) : List AnswerGiven → List AnswerGiven
  | [] => [given]
  | earlier :: rest =>
    if earlier.by_ = given.by_ then given :: rest else earlier :: putAnswer given rest

/-- `entry(key).or_insert(value)`. -/
def orInsert {κ ν : Type} [Ord κ] [Std.TransOrd κ] (m : OrdMap κ ν) (k : κ) (v : ν) :
    OrdMap κ ν :=
  match m[k]? with
  | some _ => m
  | none => m.insert k v

namespace FindingLedger

/-- Whether a finding stands under `key`. -/
def isLive (l : FindingLedger) (key : FindingKey) : Bool :=
  match l.slots[key]? with
  | some (.live _) => true
  | _ => false

def forget (l : FindingLedger) (key : FindingKey) : FindingLedger :=
  { l with
    answers := l.answers.erase key
    proofs := l.proofs.erase key
    settled := l.settled.erase key }

/-- What another node's work proved about a finding that stands. -/
def proved (l : FindingLedger) (by_ : Option NodeId) (p : FindingProvedPayload) :
    FindingLedger :=
  let key : FindingKey := (some p.node, p.id)
  if l.isLive key then
    { l with
      settled :=
        if p.result.exitCode = 0 then orInsert l.settled key (.proof p.result.cmd) else l.settled
      proofs := l.proofs.insert key ⟨by_, p.result.cmd, p.result.exitCode⟩ }
  else l

/-- What another node answered about a finding that stands: one answer for each node. -/
def answered (l : FindingLedger) (by_ : Option NodeId) (p : FindingAnsweredPayload) :
    FindingLedger :=
  let key : FindingKey := (some p.node, p.id)
  if l.isLive key then
    { l with answers := OrdMap.upsert l.answers key [] (putAnswer ⟨by_, p.answer, p.why⟩) }
  else l

/-- Folds one finding event written under `node`. -/
def apply (l : FindingLedger) (node : Option NodeId) (event : FindingEvent) : FindingLedger :=
  match event with
  | .posted finding =>
    let key : FindingKey := (node, finding.id)
    match l.slots[key]? with
    | some _ => l
    | none =>
      { l with firstPost := l.firstPost ++ [key], slots := l.slots.insert key (.live finding) }
  | .updated finding =>
    let key : FindingKey := (node, finding.id)
    if l.isLive key then
      { l.forget key with slots := l.slots.insert key (.live finding) }
    else l
  | .withdrawn p =>
    let key : FindingKey := (node, p.id)
    if l.isLive key then
      { l.forget key with slots := l.slots.insert key (.withdrawn p.reason) }
    else l
  | .refused => l
  | .answered p => l.answered node p
  | .proved p => l.proved node p
  | .settled p =>
    let key : FindingKey := (p.node, p.id)
    match node with
    | some gate =>
      if l.isLive key then { l with settled := orInsert l.settled key (.person gate) } else l
    | none => l

/-- Every finding that stands, in the order each was first posted. -/
def effective (l : FindingLedger) : List (Option NodeId × Finding) :=
  l.firstPost.filterMap fun (key : FindingKey) =>
    match (l.slots[key]? : Option Slot) with
    | some (.live finding) => some (key.1, finding)
    | _ => none

/-- Every finding that stands carries the id of its key, and was posted. -/
def WellKeyed (l : FindingLedger) : Prop :=
  ∀ key finding, l.slots[key]? = some (.live finding) →
    finding.id = key.2 ∧ key ∈ l.firstPost

/-! ## Redelivery -/

theorem putAnswer_putAnswer (given : AnswerGiven) :
    ∀ answers, putAnswer given (putAnswer given answers) = putAnswer given answers
  | [] => by simp [putAnswer]
  | earlier :: rest => by
    by_cases h : earlier.by_ = given.by_
    · simp [putAnswer, h]
    · simp [putAnswer, h, putAnswer_putAnswer given rest]

theorem getElem?_orInsert_self (m : OrdMap FindingKey Settled) (k : FindingKey) (v : Settled) :
    ∃ w, (orInsert m k v)[k]? = some w := by
  unfold orInsert
  split
  · next w hw => exact ⟨w, hw⟩
  · exact ⟨v, by simp⟩

theorem orInsert_orInsert (m : OrdMap FindingKey Settled) (k : FindingKey) (v w : Settled) :
    orInsert (orInsert m k v) k w = orInsert m k v := by
  obtain ⟨x, hx⟩ := getElem?_orInsert_self m k v
  rw [orInsert.eq_def (orInsert m k v) k w, hx]

theorem erase_erase {ν : Type} (m : OrdMap FindingKey ν) (k : FindingKey) :
    (m.erase k).erase k = m.erase k :=
  OrdMap.erase_absent _ (by simp)

/-- Whether a finding stands is read off its slot alone. -/
theorem isLive_congr {l l' : FindingLedger} (h : l'.slots = l.slots) (key : FindingKey) :
    l'.isLive key = l.isLive key := by
  simp only [isLive, h]

theorem isLive_insert_live {l : FindingLedger} (slots : OrdMap FindingKey Slot) (key : FindingKey)
    (finding : Finding) (h : l.slots = slots.insert key (.live finding)) : l.isLive key = true := by
  simp [isLive, h]

theorem isLive_insert_withdrawn {l : FindingLedger} (slots : OrdMap FindingKey Slot)
    (key : FindingKey) (reason : String) (h : l.slots = slots.insert key (.withdrawn reason)) :
    l.isLive key = false := by
  simp [isLive, h]

theorem posted_posted (l : FindingLedger) (node : Option NodeId) (finding : Finding) :
    (l.apply node (.posted finding)).apply node (.posted finding) =
      l.apply node (.posted finding) := by
  simp only [apply]
  cases hs : l.slots[((node, finding.id) : FindingKey)]? with
  | some s => simp only [hs]
  | none => simp

theorem updated_updated (l : FindingLedger) (node : Option NodeId) (finding : Finding) :
    (l.apply node (.updated finding)).apply node (.updated finding) =
      l.apply node (.updated finding) := by
  simp only [apply]
  by_cases hl : l.isLive (node, finding.id)
  · simp only [hl, if_true]
    rw [if_pos (isLive_insert_live l.slots _ finding rfl)]
    simp only [forget, erase_erase, OrdMap.insert_insert]
  · simp only [hl, Bool.false_eq_true, if_false]

theorem withdrawn_withdrawn (l : FindingLedger) (node : Option NodeId)
    (p : FindingWithdrawnPayload) :
    (l.apply node (.withdrawn p)).apply node (.withdrawn p) = l.apply node (.withdrawn p) := by
  simp only [apply]
  by_cases hl : l.isLive (node, p.id)
  · simp only [hl, if_true]
    -- the slot is withdrawn now, so the second delivery finds nothing live
    rw [if_neg (by rw [isLive_insert_withdrawn l.slots _ p.reason rfl]; simp)]
  · simp only [hl, Bool.false_eq_true, if_false]

theorem answered_answered (l : FindingLedger) (by_ : Option NodeId) (p : FindingAnsweredPayload) :
    (l.answered by_ p).answered by_ p = l.answered by_ p := by
  simp only [answered]
  by_cases hl : l.isLive (some p.node, p.id)
  · simp only [hl, if_true]
    refine (if_pos ((isLive_congr (by rfl) _).trans hl)).trans ?_
    simp [OrdMap.upsert, OrdMap.insert_insert, putAnswer_putAnswer]
  · simp only [hl, Bool.false_eq_true, if_false]

theorem proved_proved (l : FindingLedger) (by_ : Option NodeId) (p : FindingProvedPayload) :
    (l.proved by_ p).proved by_ p = l.proved by_ p := by
  simp only [proved]
  by_cases hl : l.isLive (some p.node, p.id)
  · simp only [hl, if_true]
    refine (if_pos ((isLive_congr (by rfl) _).trans hl)).trans ?_
    by_cases hz : p.result.exitCode = 0
    · simp only [hz, if_true, orInsert_orInsert, OrdMap.insert_insert]
    · simp only [hz, if_false, OrdMap.insert_insert]
  · simp only [hl, Bool.false_eq_true, if_false]

theorem settled_settled (l : FindingLedger) (node : Option NodeId) (p : FindingSettledPayload) :
    (l.apply node (.settled p)).apply node (.settled p) = l.apply node (.settled p) := by
  cases node with
  | none => rfl
  | some gate =>
    simp only [apply]
    by_cases hl : l.isLive (p.node, p.id)
    · simp only [hl, if_true]
      refine (if_pos ((isLive_congr (by rfl) _).trans hl)).trans ?_
      simp only [orInsert_orInsert]
    · simp only [hl, Bool.false_eq_true, if_false]

/-- **Folding a finding event twice is folding it once**, in every state of the ledger. -/
theorem apply_apply (l : FindingLedger) (node : Option NodeId) (event : FindingEvent) :
    (l.apply node event).apply node event = l.apply node event := by
  cases event with
  | posted finding => exact posted_posted l node finding
  | updated finding => exact updated_updated l node finding
  | withdrawn p => exact withdrawn_withdrawn l node p
  | refused => rfl
  | answered p => exact answered_answered l node p
  | proved p => exact proved_proved l node p
  | settled p => exact settled_settled l node p

end FindingLedger

end Yunta
