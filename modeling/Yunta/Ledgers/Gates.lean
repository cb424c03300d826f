/-
  Decisions a person makes, folded once: what each gate waits on, how it was resolved, and the
  rounds of questions each node asked.

  A record keeps the latest `gate_waiting` until its resolution, every resolution with the seq it
  sits at, and the forge's handle once one is recorded.  Beside the records the ledger keeps who
  is being asked now (`asking`) and which nodes wait on an answer given elsewhere (`awaiting`).
-/
import Yunta.Ledgers.Run

set_option linter.unusedVariables false

namespace Yunta

structure QuestionRound where
  answered : Option QuestionsAnsweredPayload
  answeredAt : Option Nat
  deriving DecidableEq

/-- Where a published gate's files go: its run's folder, or the root. -/
inductive GateFolder where
  | run (folder : String)
  | root
  deriving DecidableEq

structure GateRecord where
  waiting : Option (GateWaitingPayload × Nat) := none
  resolved : List (GateResolvedPayload × Nat) := []
  /-- The resolutions that answered a question about one of the node's tasks. -/
  taskAnswers : OrdSet Nat := ∅
  externalRef : Option String := none
  folder : Option GateFolder := none
  approvedSha : Option CommitSha := none
  rounds : List QuestionRound := []
  deriving DecidableEq

structure GateLedger where
  perNode : OrdMap NodeId GateRecord := ∅
  asking : OrdSet (Option NodeId) := ∅
  awaiting : OrdSet NodeId := ∅
  deriving DecidableEq

/-- The folder a published gate's question names. -/
def publishedFolder (p : GateWaitingPayload) : GateFolder :=
  match p.menu with
  | some (.published _ (some folder)) => .run folder
  | _ => .root

namespace GateRecord

/-- The resolutions that did not answer a question about one of the node's tasks. -/
def ownResolutions (r : GateRecord) : List (GateResolvedPayload × Nat) :=
  r.resolved.filter fun resolution => !r.taskAnswers.contains resolution.2

/-- Answers the latest round of questions. -/
def answerLast (p : QuestionsAnsweredPayload) (seq : Nat) :
    List QuestionRound → List QuestionRound
  | [] => []
  | [_] => [⟨some p, some seq⟩]
  | round :: next :: rest => round :: answerLast p seq (next :: rest)

/-- Folds one gate event of the node's. -/
def apply (r : GateRecord) (event : GateEvent) (seq : Nat) : GateRecord :=
  match event with
  | .waiting p =>
    { r with
      externalRef := p.externalRef <|> r.externalRef
      folder := if p.externalRef.isSome then some (publishedFolder p) else r.folder
      waiting := some (p, seq) }
  | .resolved p =>
    { r with
      approvedSha :=
        match p with
        | .approved _ sha => some sha
        | _ => r.approvedSha
      externalRef :=
        match p with
        | .changesRequested _ | .closed => none
        | _ => r.externalRef
      resolved := r.resolved ++ [(p, seq)]
      taskAnswers :=
        if r.waiting.any fun asked => asked.1.menu.any Menu.answersATask then
          r.taskAnswers.insert seq
        else r.taskAnswers
      waiting := none }
  | .questionsAsked _ => { r with rounds := r.rounds ++ [⟨none, none⟩] }
  | .questionsAnswered p => { r with rounds := answerLast p seq r.rounds }
  | .askingOpened => r

end GateRecord

namespace GateLedger

def get (l : GateLedger) (node : NodeId) : Option GateRecord := l.perNode[node]?

def clearAsking (l : GateLedger) : GateLedger := { l with asking := ∅ }

def lastExternalRef (l : GateLedger) (node : NodeId) : Option String :=
  (l.get node).bind (·.externalRef)

/-- Whether `node`'s latest round of questions was answered. -/
def answered (l : GateLedger) (node : NodeId) : Bool :=
  ((l.get node).bind (·.rounds.getLast?)).any fun round => round.answered.isSome

/-- Who is being asked, and which nodes wait on an answer given elsewhere. -/
def track (l : GateLedger) (event : GateEvent) (m : EventMeta) : GateLedger :=
  let awaits : OrdSet NodeId :=
    match m.node with
    | some node => l.awaiting.insert node
    | none => l.awaiting
  match event with
  | .askingOpened => { l with asking := l.asking.insert m.node }
  | .questionsAsked _ => { l with awaiting := awaits }
  | .waiting p => if p.externalRef.isSome then { l with awaiting := awaits } else l
  | .resolved _ | .questionsAnswered _ =>
    { l with
      asking := l.asking.erase m.node
      awaiting :=
        match m.node with
        | some node => l.awaiting.erase node
        | none => l.awaiting }

/-- Folds one gate event. -/
def apply (l : GateLedger) (event : GateEvent) (m : EventMeta) : GateLedger :=
  let l := l.track event m
  match event, m.node with
  | .askingOpened, _ => l
  | _, none => l
  | event, some node =>
    { l with perNode := OrdMap.upsert l.perNode node {} fun r => r.apply event m.seq }

end GateLedger

end Yunta
