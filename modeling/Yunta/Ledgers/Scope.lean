/-
  What the log says about scope: what each task and each node was granted beyond what it
  declared, and the last answer each request got.

  A grant and a denial act on a task, or on the node they are written under.  One that names
  neither has no subject, and `GrantLedger.apply` refuses it.
-/
import Yunta.Ledgers.Run

set_option linter.unusedVariables false

namespace Yunta

/-- What a node was granted, and its latest grant. -/
structure NodeGrants where
  paths : List ScopeGlob
  lastAt : Nat
  lastPaths : List ScopeGlob
  deriving DecidableEq

/-- The answer a scope request got. -/
inductive ScopeAnswer where
  | granted (paths : List ScopeGlob)
  | denied (why : Option String)
  deriving DecidableEq

structure GrantLedger where
  perTask : OrdMap TaskId (List ScopeGlob) := ∅
  personPerTask : OrdMap TaskId (List ScopeGlob) := ∅
  answers : OrdMap TaskId ScopeAnswer := ∅
  nodeAnswers : OrdMap NodeId ScopeAnswer := ∅
  perNode : OrdMap NodeId NodeGrants := ∅
  derived : OrdMap TaskId ScopeDerivedPayload := ∅
  granted : Nat := 0
  denied : Nat := 0
  requested : Nat := 0
  deriving DecidableEq

/-- A grant or a denial that names neither a task nor a node. -/
inductive SubjectError where
  | ungrantableSubject | sessionWithoutNode
  deriving DecidableEq

/-- Whether a person answered. -/
def Decider.isPerson : Decider → Bool
  | person _ => true
  | _ => false

namespace GrantLedger

/-- Widens the task a grant names, or the node it is written under. -/
def widen (l : GrantLedger) (p : ScopeExpansionGrantedPayload) (m : EventMeta) :
    GrantLedger × Except SubjectError Unit :=
  match p.taskId, m.node with
  | some task, _ =>
    ({ l with
        perTask := OrdMap.upsert l.perTask task [] (· ++ p.paths)
        personPerTask :=
          if p.decidedBy.isPerson then OrdMap.upsert l.personPerTask task [] (· ++ p.paths)
          else l.personPerTask
        answers := l.answers.insert task (.granted p.paths) }, .ok ())
  | none, some node =>
    ({ l with
        perNode := OrdMap.upsert l.perNode node ⟨[], m.seq, []⟩ fun grants =>
          ⟨grants.paths ++ p.paths, m.seq, p.paths⟩ }, .ok ())
  | none, none => (l, .error .ungrantableSubject)

/-- Records a denial as the answer of the task it names, or of the node it is written under. -/
def answerDenial (l : GrantLedger) (p : ScopeExpansionDeniedPayload) (m : EventMeta) :
    GrantLedger × Except SubjectError Unit :=
  match p.taskId, m.node with
  | some task, _ => ({ l with answers := l.answers.insert task (.denied p.why) }, .ok ())
  | none, some node =>
    ({ l with nodeAnswers := l.nodeAnswers.insert node (.denied p.why) }, .ok ())
  | none, none => (l, .error .ungrantableSubject)

/-- Folds one scope-domain event.  Only the grants the engine decides are counted. -/
def apply (l : GrantLedger) (event : ScopeEvent) (m : EventMeta) :
    GrantLedger × Except SubjectError Unit :=
  match event with
  | .requested => ({ l with requested := l.requested + 1 }, .ok ())
  | .granted p =>
    match l.widen p m with
    | (l, .ok ()) =>
      ({ l with granted := if p.decidedBy.isPerson then l.granted else l.granted + 1 }, .ok ())
    | (l, .error e) => (l, .error e)
  | .denied p =>
    match l.answerDenial p m with
    | (l, .ok ()) => ({ l with denied := l.denied + 1 }, .ok ())
    | (l, .error e) => (l, .error e)
  | .derived p => ({ l with derived := l.derived.insert p.taskId p }, .ok ())
  | .withdrawn => (l, .ok ())

/-- Everything `task` may reach beyond what it declared: the files that name a shape it owns, then
    every path granted to it, in grant order. -/
def reachFor (l : GrantLedger) (task : TaskId) : List ScopeGlob :=
  ((l.derived[task]?).map (·.paths)).getD [] ++ (l.perTask[task]?).getD []

/-- Whether `event` names the task it acts on. -/
def namesTask : ScopeEvent → Bool
  | .granted p => p.taskId.isSome
  | .denied p => p.taskId.isSome
  | .requested | .derived _ | .withdrawn => true

/-- **The ledger refuses only an event without a subject.** -/
theorem apply_ok {l : GrantLedger} {event : ScopeEvent} {m : EventMeta}
    (h : namesTask event = true ∨ m.node.isSome = true) : (l.apply event m).2 = .ok () := by
  cases event with
  | granted p =>
    cases ht : p.taskId <;> cases hn : m.node <;> simp_all [apply, widen, namesTask]
  | denied p =>
    cases ht : p.taskId <;> cases hn : m.node <;> simp_all [apply, answerDenial, namesTask]
  | _ => rfl

end GrantLedger

end Yunta
