/-
  What a run holds, folded once: the current artifact under each producer and identity, the order
  each was first accepted in, and what each node handed over.

  An acceptance writes its artifact over the one its producer held under the same identity.  A
  submission is counted once for each position: the hand-over remembers the last seq it counted,
  and a submission at or before it is a redelivery.

  `apply_apply` is the ledger's own half of redelivery, as `FindingLedger.apply_apply` is of the
  findings.
-/
import Yunta.Ledgers.Run

set_option linter.unusedVariables false

namespace Yunta

instance : Std.TransOrd ArtifactKind where
  eq_swap := by intro a b; cases a <;> cases b <;> decide
  isLE_trans := by intro a b c; cases a <;> cases b <;> cases c <;> decide

instance : Std.LawfulEqOrd ArtifactKind where
  compare_self := by intro a; cases a <;> decide
  eq_of_compare := by intro a b; cases a <;> cases b <;> decide

namespace ArtifactId

/-- An identity as its derived order reads it: a kind before a name. -/
def rank : ArtifactId → Nat × (ArtifactKind × String)
  | interpreted kind => (0, (kind, ""))
  | named name => (1, (.tasks, name))

theorem rank_injective {a b : ArtifactId} (h : a.rank = b.rank) : a = b := by
  cases a <;> cases b <;> simp_all [rank]

instance rankOrd : Ord ArtifactId := ⟨fun a b => compare a.rank b.rank⟩

instance : Std.TransOrd ArtifactId where
  eq_swap := by
    intro a b
    exact Std.OrientedOrd.eq_swap (a := a.rank) (b := b.rank)
  isLE_trans := by
    intro a b c
    exact Std.TransOrd.isLE_trans (a := a.rank) (b := b.rank) (c := c.rank)

instance : Std.LawfulEqOrd ArtifactId where
  compare_self := by
    intro a
    exact Std.ReflOrd.compare_self (a := a.rank)
  eq_of_compare := fun h => rank_injective (Std.LawfulEqOrd.eq_of_compare h)

end ArtifactId

/-- What names an artifact in the store: its producer and its identity. -/
abbrev Held := Option NodeId × ArtifactId

instance heldTransOrd : Std.TransOrd Held := inferInstance

structure ArtifactRef where
  producer : Option NodeId
  artifact : ArtifactId
  contentHash : ContentHash
  origin : ArtifactOrigin
  seq : Nat
  deriving DecidableEq

/-- What a node handed over of one kind, and how many refusals broke each rule. -/
structure HandedOver where
  submissions : Nat := 0
  refusals : Nat := 0
  refused : List (String × Nat) := []
  countedThrough : Option Nat := none
  deriving DecidableEq

namespace HandedOver

/-- One more refusal that broke `code`. -/
def countCode (code : String) : List (String × Nat) → List (String × Nat)
  | [] => [(code, 1)]
  | (seen, times) :: rest =>
    if seen = code then (seen, times + 1) :: rest else (seen, times) :: countCode code rest

/-- Each of `codes` once, in the order first met. -/
def distinct (codes : List String) : List String :=
  codes.foldl (fun broken code => if code ∈ broken then broken else broken ++ [code]) []

/-- Counts a submission at `seq`, unless a later or equal position was counted already. -/
def submitted (h : HandedOver) (seq : Nat) (outcome : SubmissionOutcome) : HandedOver :=
  if h.countedThrough.any fun counted => seq ≤ counted then h
  else
    match outcome with
    | .accepted _ => { h with countedThrough := some seq, submissions := h.submissions + 1 }
    | .refused codes =>
      { countedThrough := some seq
        submissions := h.submissions + 1
        refusals := h.refusals + 1
        refused := (distinct codes).foldl (fun refused code => countCode code refused) h.refused }

theorem submitted_countedThrough (h : HandedOver) (seq : Nat) (outcome : SubmissionOutcome) :
    (h.submitted seq outcome).countedThrough.any (fun counted => seq ≤ counted) = true := by
  unfold submitted
  split
  · assumption
  · cases outcome <;> simp

theorem submitted_submitted (h : HandedOver) (seq : Nat) (outcome : SubmissionOutcome) :
    (h.submitted seq outcome).submitted seq outcome = h.submitted seq outcome := by
  exact if_pos (h.submitted_countedThrough seq outcome)

end HandedOver

structure ArtifactLedger where
  current : OrdMap Held ArtifactRef := ∅
  firstAccepted : List Held := []
  handovers : OrdMap (NodeId × ArtifactKind) HandedOver := ∅
  deriving DecidableEq

/-- The name a path carries, without the directory of artifacts. -/
def artifactName (path : List String) : String :=
  "/".intercalate (if path.head? = some "artifacts" then path.tail else path)

/-- What an older log's artifact is named by. -/
def legacyIdentity (written : ArtifactWrittenPayload) : ArtifactId :=
  match written.artifactKind with
  | some kind => .interpreted kind
  | none => .named (artifactName written.path)

namespace ArtifactLedger

/-- Holds an artifact under its producer and identity, over the one held before. -/
def hold (l : ArtifactLedger) (ref : ArtifactRef) : ArtifactLedger :=
  let held : Held := (ref.producer, ref.artifact)
  { l with
    firstAccepted := if l.current.contains held then l.firstAccepted else l.firstAccepted ++ [held]
    current := l.current.insert held ref }

/-- Folds one artifact event. -/
def apply (l : ArtifactLedger) (node : Option NodeId) (seq : Nat) (event : ArtifactEvent) :
    ArtifactLedger :=
  match event with
  | .accepted p => l.hold ⟨node, p.artifact, p.contentHash, p.origin, seq⟩
  | .written p => l.hold ⟨node, legacyIdentity p, p.contentHash, .legacy, seq⟩
  | .submitted p =>
    match node with
    | some node =>
      { l with
        handovers :=
          OrdMap.upsert l.handovers (node, p.artifactKind) {} fun h => h.submitted seq p.outcome }
    | none => l

/-- Every artifact the run holds, in first-acceptance order. -/
def every (l : ArtifactLedger) : List ArtifactRef :=
  l.firstAccepted.filterMap fun held => l.current[held]?

/-- The later of two acceptances, and the second where neither is. -/
def laterOf (best : Option ArtifactRef) (held : ArtifactRef) : Option ArtifactRef :=
  match best with
  | some best => if best.seq ≤ held.seq then some held else some best
  | none => some held

/-- The current artifact under an identity: of one producer, or of whoever accepted it last. -/
def latest (l : ArtifactLedger) (id : ArtifactId) (producer : Option NodeId) : Option ArtifactRef :=
  match producer with
  | some node => l.current[((some node, id) : Held)]?
  | none => ((l.current.toList.map (·.2)).filter (·.artifact = id)).foldl laterOf none

/-! ## Redelivery -/

theorem hold_hold (l : ArtifactLedger) (ref : ArtifactRef) : (l.hold ref).hold ref = l.hold ref := by
  simp [hold, OrdMap.insert_insert]

/-- **Folding an artifact event twice is folding it once**, in every state of the ledger. -/
theorem apply_apply (l : ArtifactLedger) (node : Option NodeId) (seq : Nat)
    (event : ArtifactEvent) :
    (l.apply node seq event).apply node seq event = l.apply node seq event := by
  cases event with
  | accepted p => exact hold_hold l _
  | written p => exact hold_hold l _
  | submitted p =>
    cases node with
    | none => rfl
    | some node =>
      simp [apply, OrdMap.upsert, OrdMap.insert_insert, HandedOver.submitted_submitted]

end ArtifactLedger

end Yunta
