/-
  The runs a run started and how they closed, and the degradations its adapters stated.
-/
import Yunta.Ledgers.Run

set_option linter.unusedVariables false

namespace Yunta

structure ChildLink where
  runId : RunId
  node : Option NodeId
  workflowHash : ContentHash
  terminal : Option TerminalState
  deriving DecidableEq

structure ChildLedger where
  links : List ChildLink := []
  /-- What every child run that closed spent. -/
  tokens : TokenUsage := {}
  iterations : Nat := 0
  finishedBy : OrdMap NodeId RunId := ∅
  deriving DecidableEq

namespace ChildLedger

/-- The last child `node` started and that never closed. -/
def openUnder (l : ChildLedger) (node : NodeId) : Option ChildLink :=
  l.links.reverse.find? fun link => link.node = some node && link.terminal.isNone

/-- Closes the newest link of `run` among `links`, given newest first; `none` when none is. -/
def closeLink (run : RunId) (terminal : TerminalState) : List ChildLink → Option (List ChildLink)
  | [] => none
  | link :: older =>
    if link.runId = run then some ({ link with terminal := some terminal } :: older)
    else (closeLink run terminal older).map (link :: ·)

/-- Folds one child event. -/
def apply (l : ChildLedger) (event : ChildEvent) (m : EventMeta) : ChildLedger :=
  match event with
  | .created p =>
    { l with links := l.links ++ [⟨p.childRunId, m.node, p.childWorkflowHash, none⟩] }
  | .finished p =>
    { l with
      tokens := l.tokens + p.tokens
      finishedBy :=
        match m.node with
        | some node => l.finishedBy.insert node p.childRunId
        | none => l.finishedBy
      links :=
        match closeLink p.childRunId p.terminalState l.links.reverse with
        | some links => links.reverse
        | none =>
          l.links ++ [⟨p.childRunId, m.node, p.childWorkflowHash, some p.terminalState⟩] }
  | .loopIteration p => { l with iterations := max l.iterations p.iteration }

end ChildLedger

/-! ## Degradations -/

structure Degradation where
  capability : String
  adapter : AdapterId
  policy : String
  node : Option NodeId
  at_ : Int
  deriving DecidableEq

structure DegradationLedger where
  all : List Degradation := []
  deriving DecidableEq

/-- Folds one session event: a degradation is kept, and nothing else is. -/
def DegradationLedger.apply (l : DegradationLedger) (event : SessionEvent) (m : EventMeta) :
    DegradationLedger :=
  match event with
  | .capabilityDegraded p =>
    { l with all := l.all ++ [⟨p.capability, p.adapter, p.policy, m.node, m.at_⟩] }
  | _ => l

end Yunta
