/-
  The scheduler loop: replay the log, ask what is next, append what the step writes, and ask again
  until the answer ends the run.

  * `Acts` stands for the steps the engine takes: what each appends, given the log so far and the
    decision, or `none` where the decision ends the invocation.
  * `drive` iterates it, and keeps each turn it took; `drive_turns` carries what one turn keeps to
    the log each turn reads.
-/
import Yunta.Schedule.Decide

set_option linter.unusedVariables false

namespace Yunta

/-- What a decision appends to the log; `none` where it ends the run. -/
abbrev Acts := List StoredEvent → Decision → Option (List StoredEvent)

/-- One turn of the loop: the log it read, and what it decided. -/
structure Turn where
  log : List StoredEvent
  decision : Decision

/-- What the loop did: its turns, the log it left, and the last answer. -/
structure Driven where
  turns : List Turn
  log : List StoredEvent
  answer : Decision

section
variable (workflow : Workflow) (policy : Policy) (acts : Acts)

/-- The loop, for at most `fuel` turns. -/
def drive : Nat → List StoredEvent → Driven
  | 0, log => ⟨[], log, decide workflow (derive log) policy⟩
  | fuel + 1, log =>
    let decision := decide workflow (derive log) policy
    match acts log decision with
    | none => ⟨[], log, decision⟩
    | some events =>
      let rest := drive fuel (log ++ events)
      ⟨⟨log, decision⟩ :: rest.turns, rest.log, rest.answer⟩

end

/-- Whether the run is over for `acts`: what it answers appends nothing. -/
def Driven.ended (driven : Driven) (acts : Acts) : Bool := (acts driven.log driven.answer).isNone

section
variable {workflow : Workflow} {policy : Policy} {acts : Acts}

theorem drive_stop {fuel : Nat} {log : List StoredEvent}
    (h : acts log (decide workflow (derive log) policy) = none) :
    drive workflow policy acts fuel log = ⟨[], log, decide workflow (derive log) policy⟩ := by
  cases fuel with
  | zero => rfl
  | succ fuel => simp only [drive, h]

theorem drive_go {fuel : Nat} {log events : List StoredEvent}
    (h : acts log (decide workflow (derive log) policy) = some events) :
    drive workflow policy acts (fuel + 1) log =
      ⟨⟨log, decide workflow (derive log) policy⟩ ::
        (drive workflow policy acts fuel (log ++ events)).turns,
        (drive workflow policy acts fuel (log ++ events)).log,
        (drive workflow policy acts fuel (log ++ events)).answer⟩ := by
  simp only [drive, h]

/-- **Invariant rule, turn by turn**: what one turn keeps holds of the log each turn reads. -/
theorem drive_turns {P : List StoredEvent → Prop}
    (hstep : ∀ log events, P log →
      acts log (decide workflow (derive log) policy) = some events → P (log ++ events))
    (fuel : Nat) {log : List StoredEvent} (h : P log) :
    ∀ turn ∈ (drive workflow policy acts fuel log).turns, P turn.log := by
  induction fuel generalizing log with
  | zero =>
    intro turn hmem
    cases hmem
  | succ fuel ih =>
    intro turn hmem
    cases hact : acts log (decide workflow (derive log) policy) with
    | none =>
      rw [drive_stop hact] at hmem
      cases hmem
    | some events =>
      rw [drive_go hact] at hmem
      rcases List.mem_cons.mp hmem with rfl | hmem
      · exact h
      · exact ih (hstep log events h hact) turn hmem

end

end Yunta
