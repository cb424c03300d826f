/-
  A CLI's stream of events, held to the protocol while it is read.

  1. **The guard** — `StreamGuard.admitEvent` admits one parsed event at a time: what reports work before
     the session opened is replaced by the failure that says so, and nothing is admitted after a
     terminal event.

  2. **The reader** — `sentOf` is the task that reads a CLI's stdout: each line through the adapter's
     parser, each event through the guard, until a terminal event is sent.  A parser is any function
     of a state of its own and a line.

  3. **What is sent** — `protocol` says which events of a whole stream are: `sent_protocol` has the
     reader send exactly those, and `session_protocol` that what a session sees of any stdout opens
     with the session or a failure, holds one terminal event at most, ends at it, and does not
     depend on how the bytes arrived.
-/
import Yunta.Process.Lines
import Yunta.Tasks.Attempts

set_option linter.unusedVariables false

namespace Yunta.Process

open TaskCycle (FailureCause)

/-! ## The guard -/

/-- What an adapter reports of a session. -/
inductive AgentEvent where
  | sessionOpened (sessionId : SessionId) (model : Option ModelName)
  | runToolRejected (tool : String)
  | toolUse (name : String)
  | usage (inputTokens outputTokens cachedInputTokens : Option UInt64)
  | note (text : String)
  | completed (summary : String)
  | failed (error : String) (cause : FailureCause)
  deriving DecidableEq

namespace AgentEvent

/-- An event's kind, for a message about one that came out of order. -/
def describe : AgentEvent → String
  | sessionOpened .. => "a session opening"
  | toolUse _ => "a tool use"
  | usage .. => "token usage"
  | note _ => "a note"
  | completed _ => "a completion"
  | failed .. => "a failure"
  | runToolRejected _ => "a run tool failure"

def terminal : AgentEvent → Bool
  | completed _ | failed .. => true
  | _ => false

/-- The events a stream may open with. -/
def opens : AgentEvent → Bool
  | sessionOpened .. | failed .. => true
  | _ => false

/-- What an event adds to a session's tokens: a count the CLI did not report adds nothing. -/
def spends : AgentEvent → TokenUsage
  | usage input output cached => ⟨input.getD 0, output.getD 0, cached⟩
  | _ => 0

/-- The failure an event that came before the session opened is. -/
def early (event : AgentEvent) (cli : String) : AgentEvent :=
  failed s!"the {cli} CLI reported {event.describe} before opening the session" (.refused .final)

end AgentEvent

/-- The tokens a stream's events add up to. -/
def spentBy (events : List AgentEvent) : TokenUsage := (events.map AgentEvent.spends).sum

theorem spentBy_append (events more : List AgentEvent) :
    spentBy (events ++ more) = spentBy events + spentBy more := by
  rw [spentBy, List.map_append, List.sum_append]
  rfl

structure StreamGuard where
  opened : Bool := false
  closed : Bool := false
  deriving DecidableEq

/-- One parsed event admitted, or what replaces it; none once the stream has ended. -/
def StreamGuard.admitEvent (guard : StreamGuard) (event : AgentEvent) (cli : String) :
    Option AgentEvent × StreamGuard :=
  if guard.closed then (none, guard)
  else
    let event := if event.opens || guard.opened then event else event.early cli
    (some event, ⟨true, event.terminal⟩)

/-! ## The reader -/

/-- The events of one line: what is sent of them, the guard after them, and whether one of them ends
    the reading. -/
def admitAll (cli : String) : StreamGuard → List AgentEvent → List AgentEvent × StreamGuard × Bool
  | guard, [] => ([], guard, false)
  | guard, event :: events =>
    match guard.admitEvent event cli with
    | (none, guard) => ([], guard, true)
    | (some event, guard) =>
      if event.terminal then ([event], guard, true)
      else
        let rest := admitAll cli guard events
        (event :: rest.1, rest.2)

section
variable {σ : Type} (parse : σ → String → List AgentEvent × σ) (cli : String)

/-- What the reader sends of a CLI's lines. -/
def sentFrom : StreamGuard → σ → List String → List AgentEvent
  | _, _, [] => []
  | guard, state, line :: lines =>
    let parsed := parse state line
    let taken := admitAll cli guard parsed.1
    if taken.2.2 then taken.1 else taken.1 ++ sentFrom taken.2.1 parsed.2 lines

/-- What a session sees of a CLI's stdout. -/
def sentOf (state : σ) (stdout : List PipeRead) : List AgentEvent :=
  sentFrom parse cli {} state (LineReader.new stdout).lines

/-! ## What is sent -/

/-- Everything a parser reads in lines, one after the other. -/
def parsedFrom : σ → List String → List AgentEvent
  | _, [] => []
  | state, line :: lines => (parse state line).1 ++ parsedFrom (parse state line).2 lines

end

/-- A stream up to the terminal event it ends at. -/
def throughTerminal : List AgentEvent → List AgentEvent
  | [] => []
  | event :: events => if event.terminal then [event] else event :: throughTerminal events

/-- What of a stream belongs to the session: all of it up to the terminal event, where it opens as a
    stream may, and otherwise the failure its first event is. -/
def protocol (cli : String) : List AgentEvent → List AgentEvent
  | [] => []
  | event :: events =>
    if event.opens then throughTerminal (event :: events) else [event.early cli]

theorem throughTerminal_append (events more : List AgentEvent) :
    throughTerminal (events ++ more) = if events.any AgentEvent.terminal then throughTerminal events
      else events ++ throughTerminal more := by
  induction events with
  | nil => rfl
  | cons event events ih =>
    show (if event.terminal then [event] else event :: throughTerminal (events ++ more)) =
      if event.terminal || events.any AgentEvent.terminal then
        (if event.terminal then [event] else event :: throughTerminal events)
      else event :: (events ++ throughTerminal more)
    cases event.terminal with
    | true => rfl
    | false =>
      rw [ih, Bool.false_or]
      cases events.any AgentEvent.terminal <;> rfl

theorem throughTerminal_of_none {events : List AgentEvent}
    (h : events.any AgentEvent.terminal = false) : throughTerminal events = events := by
  have := throughTerminal_append events []
  rw [List.append_nil, h] at this
  rw [this]
  exact List.append_nil events

theorem any_throughTerminal (events : List AgentEvent) :
    (throughTerminal events).any AgentEvent.terminal = events.any AgentEvent.terminal := by
  induction events with
  | nil => rfl
  | cons event events ih =>
    cases hterminal : event.terminal with
    | true => simp [throughTerminal, hterminal]
    | false => simp [throughTerminal, hterminal, ih]

/-- Once the session is open, a line's events are sent up to the first terminal one. -/
theorem admitAll_opened (cli : String) (events : List AgentEvent) :
    admitAll cli ⟨true, false⟩ events =
      (throughTerminal events, ⟨true, events.any AgentEvent.terminal⟩,
        events.any AgentEvent.terminal) := by
  induction events with
  | nil => rfl
  | cons event events ih =>
    have hadmit : StreamGuard.admitEvent ⟨true, false⟩ event cli = (some event, ⟨true, event.terminal⟩) := by
      simp [StreamGuard.admitEvent]
    rw [admitAll, hadmit]
    dsimp only
    cases hterminal : event.terminal with
    | true => simp [throughTerminal, hterminal]
    | false => simp [throughTerminal, hterminal, ih]

/-- A stream not open yet opens with its first event, or with the failure that event is. -/
theorem admitAll_fresh (cli : String) (events : List AgentEvent) :
    admitAll cli {} events = (protocol cli events,
      ⟨!events.isEmpty, (protocol cli events).any AgentEvent.terminal⟩,
      (protocol cli events).any AgentEvent.terminal) := by
  cases events with
  | nil => rfl
  | cons event events =>
    cases hopens : event.opens with
    | false =>
      have hadmit : StreamGuard.admitEvent {} event cli = (some (event.early cli), ⟨true, true⟩) := by
        simp [StreamGuard.admitEvent, hopens]
        rfl
      rw [admitAll, hadmit]
      simp [protocol, hopens, AgentEvent.early, AgentEvent.terminal]
    | true =>
      have hadmit : StreamGuard.admitEvent {} event cli = (some event, ⟨true, event.terminal⟩) := by
        simp [StreamGuard.admitEvent, hopens]
      rw [admitAll, hadmit]
      dsimp only
      cases hterminal : event.terminal with
      | true => simp [protocol, hopens, throughTerminal, hterminal]
      | false =>
        rw [admitAll_opened]
        simp [protocol, hopens, throughTerminal, hterminal, any_throughTerminal]

section
variable {σ : Type} (parse : σ → String → List AgentEvent × σ) (cli : String)

/-- What an open session is sent of its lines is their events up to the first terminal one. -/
theorem sentFrom_opened (state : σ) (lines : List String) :
    sentFrom parse cli ⟨true, false⟩ state lines = throughTerminal (parsedFrom parse state lines) := by
  induction lines generalizing state with
  | nil => rfl
  | cons line lines ih =>
    rw [sentFrom, parsedFrom, admitAll_opened, throughTerminal_append]
    dsimp only
    cases hany : (parse state line).1.any AgentEvent.terminal with
    | true => rfl
    | false =>
      show throughTerminal (parse state line).1 ++ sentFrom parse cli ⟨true, false⟩ _ lines = _
      rw [ih, throughTerminal_of_none hany]
      rfl

/-- **The reader sends what of the stream belongs to the session.** -/
theorem sent_protocol (state : σ) (lines : List String) :
    sentFrom parse cli {} state lines = protocol cli (parsedFrom parse state lines) := by
  induction lines generalizing state with
  | nil => rfl
  | cons line lines ih =>
    rw [sentFrom, parsedFrom, admitAll_fresh]
    dsimp only
    cases hparsed : (parse state line).1 with
    | nil => exact ih _
    | cons event events =>
      rw [List.cons_append]
      cases hopens : event.opens with
      | false => simp [protocol, hopens, AgentEvent.early, AgentEvent.terminal]
      | true =>
        have hwhole : protocol cli (event :: events) = throughTerminal (event :: events) := if_pos hopens
        have hmore : protocol cli (event :: (events ++ parsedFrom parse (parse state line).2 lines)) =
            throughTerminal ((event :: events) ++ parsedFrom parse (parse state line).2 lines) :=
          if_pos hopens
        rw [hwhole, hmore, any_throughTerminal, throughTerminal_append]
        cases hany : (event :: events).any AgentEvent.terminal with
        | true => rfl
        | false =>
          show throughTerminal (event :: events) ++ sentFrom parse cli ⟨true, false⟩ _ lines = _
          rw [sentFrom_opened, throughTerminal_of_none hany]
          rfl

end

/-- What a session sees is a session's: it opens with the session or with a failure, and it ends at
    its one terminal event, where it holds one. -/
structure Spoken (events : List AgentEvent) : Prop where
  opens : ∀ event ∈ events.head?, event.opens = true
  ends : ∀ before event after, events = before ++ event :: after → event.terminal = true → after = []

theorem throughTerminal_ends (events : List AgentEvent) :
    ∀ before event after, throughTerminal events = before ++ event :: after →
      event.terminal = true → after = [] := by
  induction events with
  | nil =>
    intro before event after h
    cases before <;> cases h
  | cons first events ih =>
    intro before event after h hterminal
    rw [throughTerminal] at h
    cases hfirst : first.terminal with
    | true =>
      rw [hfirst, if_pos rfl] at h
      cases before with
      | nil => exact ((List.cons.inj h).2).symm
      | cons _ before =>
        have hnil := (List.cons.inj h).2
        cases before <;> cases hnil
    | false =>
      rw [hfirst, if_neg Bool.false_ne_true] at h
      cases before with
      | nil =>
        rw [(List.cons.inj h).1, hterminal] at hfirst
        cases hfirst
      | cons _ before => exact ih before event after (List.cons.inj h).2 hterminal

theorem protocol_spoken (cli : String) (events : List AgentEvent) : Spoken (protocol cli events) := by
  cases events with
  | nil =>
    refine ⟨fun event hevent => (by cases hevent), fun before event after h => ?_⟩
    cases before <;> cases h
  | cons event events =>
    cases hopens : event.opens with
    | true =>
      have hwhole : protocol cli (event :: events) = throughTerminal (event :: events) := if_pos hopens
      rw [hwhole]
      refine ⟨fun head hhead => ?_, throughTerminal_ends _⟩
      rw [throughTerminal] at hhead
      split at hhead
      · exact Option.some.inj hhead ▸ hopens
      · exact Option.some.inj hhead ▸ hopens
    | false =>
      have hearly : protocol cli (event :: events) = [event.early cli] := by
        rw [protocol, hopens, if_neg Bool.false_ne_true]
      rw [hearly]
      refine ⟨fun head hhead => ?_, fun before head after h _ => ?_⟩
      · rw [← Option.some.inj hhead]
        rfl
      · cases before with
        | nil => exact ((List.cons.inj h).2).symm
        | cons _ before =>
          have hnil := (List.cons.inj h).2
          cases before <;> cases hnil

/-- **Whatever a CLI writes, however it arrives, the session sees a session**: what is sent opens as a
    stream may and ends at its one terminal event; it is what the protocol keeps of the lines heard,
    and so the same for every way the same bytes come in. -/
theorem session_protocol {σ : Type} (parse : σ → String → List AgentEvent × σ) (cli : String)
    (state : σ) (stdout : List PipeRead) :
    Spoken (sentOf parse cli state stdout) ∧
      sentOf parse cli state stdout =
        protocol cli (parsedFrom parse state (linesHeard (heard stdout).1 (heard stdout).2)) := by
  have hsent : sentOf parse cli state stdout =
      protocol cli (parsedFrom parse state (linesHeard (heard stdout).1 (heard stdout).2)) := by
    rw [sentOf, sent_protocol, lines_heard]
    rfl
  exact ⟨hsent ▸ protocol_spoken cli _, hsent⟩

end Yunta.Process
