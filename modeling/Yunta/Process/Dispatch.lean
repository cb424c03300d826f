/-
  One session's dispatch, from opening to its end, through the service behind it going away and
  coming back.

  1. **The fold** — `applyAgentEvent` folds one event of a session's stream into the log and into the
     totals; `readStream` reads the stream until it ends, a stop it asked for ends it, a budget cuts
     it off, or the attempt is cancelled.  Calls reach the session's run tools at any time between.

  2. **One session** — `streamSession` opens a session, reads it, ends it where the read was cut short,
     and releases it.

  3. **The dispatch** — `dispatchSession` picks a session that lost its service back up, as often as
     it loses it, each time with what is left of its budget.

  4. **Main results** — `dispatch_told`: what a dispatch says it spent is what its log's usage
     messages add up to, over every stretch and every ending that says so.  `dispatch_capped`: a
     dispatch that completes spent within the cap it was given, one a cap stopped spent past it, and
     an adapter that counts as it goes is past it by its last report at most.

  Both are carried by what one stretch does to the log (`Told`, `Counted`), and by the budget of a
  stretch being what the stretches before it left (`remaining`).
-/
import Yunta.Process.Stream
import Yunta.Lib.OrdMap
import Yunta.Events.Payloads

set_option linter.unusedVariables false

namespace Yunta.Process.Dispatch

open TaskCycle (FailureCause)

/-! ## What is read -/

/-- The most a session may spend, and for how long, in nanoseconds. -/
structure Budget where
  maxTokens : Option UInt64
  timeout : Option Nat
  deriving DecidableEq

/-- What one session's stream is read against. -/
structure Terms where
  adapter : AdapterId
  /-- Whether the session is recorded: a dispatch may run without an observer. -/
  audited : Bool
  agent : Option String
  task : Option TaskId
  budget : Budget
  countsCapMidSession : Bool

/-- What a session's stream folds into while it is read. -/
structure Totals where
  tokens : TokenUsage := 0
  opened : Option SessionId := none
  cutOff : Bool := false

/-- How a session's dispatch ended. -/
inductive DispatchOutcome where
  | completed (summary : String)
  | failed (error : String) (cause : FailureCause)
  | crashed
  | cancelled
  | budgetExceeded (cause : Failure)
  deriving DecidableEq

inductive DispatchError where
  | adapter
  | audit
  | release
  | notStopped (released : Bool) (tokens : TokenUsage)
  deriving DecidableEq

/-- The calls of a session's run tools that reached the server and are open, by tool. -/
abbrev Arrivals := OrdMap String Nat

namespace Arrivals

def reached (arrivals : Arrivals) (tool : String) : Arrivals := arrivals.upsert tool 0 (· + 1)

def answered (arrivals : Arrivals) (tool : String) : Arrivals :=
  match arrivals[tool]? with
  | some open_ => arrivals.insert tool (open_ - 1)
  | none => arrivals

/-- Whether a rejection of `tool` reached the server; consumes one open call. -/
def takeArrival (arrivals : Arrivals) (tool : String) : Bool × Arrivals :=
  match arrivals[tool]? with
  | some (open_ + 1) => (true, arrivals.insert tool open_)
  | _ => (false, arrivals)

end Arrivals

/-- What a read wakes to: an event, the deadline, a cancellation, or meanwhile a call of a run tool
    reaching its server, or answered there.  A stream is at its end where nothing is left. -/
inductive Wake where
  | event (event : AgentEvent)
  | deadline
  | cancelled
  | reached (tool : String)
  | answered (tool : String)

/-! ## The fold -/

/-- The state one streamed event folds into: the totals, the calls open, and the log. -/
structure AgentEventCtx where
  totals : Totals := {}
  arrivals : Arrivals := ∅
  log : List SessionEvent

section
variable (accepts : List SessionEvent → SessionEvent → Bool)

/-- One event appended to the session's audit trail, where the store takes it; nothing where the
    dispatch runs without an observer. -/
def emitAudit (audited : Bool) (log : List SessionEvent) (event : SessionEvent) :
    Option (List SessionEvent) :=
  if !audited then some log
  else if accepts log event then some (log ++ [event]) else none

variable (terms : Terms)

/-- An event recorded, and the reading that goes on, or the storage failure that ends it. -/
def said (ctx : AgentEventCtx) (event : SessionEvent) :
    Except DispatchError (Option DispatchOutcome) × AgentEventCtx :=
  match emitAudit accepts terms.audited ctx.log event with
  | none => (.error .audit, ctx)
  | some log => (.ok none, { ctx with log })

/-- The stop a token total earns against the cap. -/
def overCap (maxTokens : Option UInt64) (used : UInt64) : Option DispatchOutcome :=
  match maxTokens with
  | some max =>
    if max < used then some (.budgetExceeded (.tokenBudget used.toNat max.toNat)) else none
  | none => none

def sessionOpened (ctx : AgentEventCtx) (sessionId : SessionId) (model : Option ModelName) :
    Except DispatchError (Option DispatchOutcome) × AgentEventCtx :=
  said accepts terms { ctx with totals.opened := some sessionId }
    (.opened ⟨sessionId, terms.agent, model, terms.task⟩)

/-- A rejection of a call the server received is a failed call; one the server never received was
    blocked before it got there.  Nothing is recorded before the session opens. -/
def rejectedTool (ctx : AgentEventCtx) (tool : String) :
    Except DispatchError (Option DispatchOutcome) × AgentEventCtx :=
  let taken := ctx.arrivals.takeArrival tool
  let ctx := { ctx with arrivals := taken.2 }
  match ctx.totals.opened with
  | none => (.ok none, ctx)
  | some sessionId =>
    said accepts terms ctx
      (.runToolFailed ⟨sessionId, tool, if taken.1 then "call_failed" else "approval_blocked"⟩)

/-- What the CLI reported it spent, recorded and added to the total; a total past a cap counted
    mid-session ends the stream here. -/
def usage (ctx : AgentEventCtx) (input output cached : Option UInt64) :
    Except DispatchError (Option DispatchOutcome) × AgentEventCtx :=
  match emitAudit accepts terms.audited ctx.log (.message ⟨.usage, none, input, output, cached⟩) with
  | none => (.error .audit, ctx)
  | some log =>
    let tokens := ctx.totals.tokens + ⟨input.getD 0, output.getD 0, cached⟩
    (.ok (if terms.countsCapMidSession then overCap terms.budget.maxTokens tokens.total else none),
      { ctx with totals.tokens := tokens, log })

/-- What a session that completed its turn ends on: an adapter that does not count mid-session is
    held to the cap here. -/
def completed (ctx : AgentEventCtx) (summary : String) : DispatchOutcome :=
  if terms.countsCapMidSession then .completed summary
  else (overCap terms.budget.maxTokens ctx.totals.tokens.total).getD (.completed summary)

def applyAgentEvent (ctx : AgentEventCtx) :
    AgentEvent → Except DispatchError (Option DispatchOutcome) × AgentEventCtx
  | .sessionOpened sessionId model => sessionOpened accepts terms ctx sessionId model
  | .runToolRejected tool => rejectedTool accepts terms ctx tool
  | .toolUse name => said accepts terms ctx (.message { messageType := .toolUse, toolName := some name })
  | .note _ => said accepts terms ctx (.message { messageType := .note })
  | .usage input output cached => usage accepts terms ctx input output cached
  | .completed summary => (.ok (some (completed terms ctx summary)), ctx)
  | .failed error cause =>
    (.ok (some (.failed error cause)),
      { ctx with totals.cutOff := cause = .refused .unreachable })

/-- The stop a session that ran past its timeout earns. -/
def timedOut (timeout : Nat) : DispatchOutcome :=
  .budgetExceeded (.timedOut (min (timeout / 1000000) (2 ^ 64 - 1)))

/-- Reads the session's stream to its end: the outcome it stopped on, if it stopped on one, and whether
    the read was cancelled. -/
def readStream : AgentEventCtx → List Wake →
    Except DispatchError (Option DispatchOutcome × Bool) × AgentEventCtx
  | ctx, [] => (.ok (none, false), ctx)
  | ctx, .cancelled :: _ => (.ok (none, true), ctx)
  | ctx, .deadline :: wakes =>
    match terms.budget.timeout with
    | some timeout => (.ok (some (timedOut timeout), false), ctx)
    -- No deadline passes for a session that has none.
    | none => readStream ctx wakes
  | ctx, .reached tool :: wakes => readStream { ctx with arrivals := ctx.arrivals.reached tool } wakes
  | ctx, .answered tool :: wakes => readStream { ctx with arrivals := ctx.arrivals.answered tool } wakes
  | ctx, .event event :: wakes =>
    match applyAgentEvent accepts terms ctx event with
    | (.error error, ctx) => (.error error, ctx)
    | (.ok (some outcome), ctx) => (.ok (some outcome, false), ctx)
    | (.ok none, ctx) => readStream ctx wakes

/-! ## One session -/

/-- A conversation to pick back up, and whether the caller brings a brief for a fresh one. -/
structure Resume where
  session : SessionId
  briefed : Bool

/-- What one session of a dispatch meets: whether the host settles (none where the log refused to say),
    whether the adapter picks a conversation up and opens a fresh one, what its read wakes to, and
    whether it stops, says how it exited, and lets go of what it set up; and the summary its rail
    leaves. -/
structure Stretch where
  settled : Option Bool
  resumes : Bool
  spawns : Bool
  wakes : List Wake
  stops : Bool
  exits : Bool
  releases : Bool
  summary : Option RailSummaryPayload

/-- What one session left behind: how it ended, what it spent, and the sessions it opened. -/
structure Dispatched where
  outcome : DispatchOutcome
  tokens : TokenUsage
  sessions : List SessionId

/-- What the sessions of a dispatch share: the calls open at the run tools, and the log. -/
structure World where
  arrivals : Arrivals := ∅
  log : List SessionEvent

/-- An event recorded in the world, or nothing where the store refuses it. -/
def World.emit (world : World) (event : SessionEvent) : Option World :=
  (emitAudit accepts terms.audited world.log event).map fun log => { world with log }

def AgentEventCtx.world (ctx : AgentEventCtx) : World := ⟨ctx.arrivals, ctx.log⟩

/-- The degradation a session owes when its budget caps tokens and its adapter does not count the cap
    mid-session. -/
def recordCapAtSessionEnd (world : World) : Option World :=
  if terms.budget.maxTokens.isNone || terms.countsCapMidSession then some world
  else world.emit accepts terms
    (.capabilityDegraded ⟨"mid_session_token_cap", terms.adapter, "cap_at_session_end"⟩)

/-- Opens the session, or picks back up the conversation `resume` names where the adapter can; one it
    cannot pick up opens fresh on the caller's brief, and the log says so. -/
def spawnOrResume (canResume : Bool) (stretch : Stretch) (world : World) :
    Option Resume → Except DispatchError Unit × World
  | none => (if stretch.spawns then .ok () else .error .adapter, world)
  | some resume =>
    if !(resume.briefed && !canResume) && stretch.resumes then (.ok (), world)
    else if !resume.briefed then (.error .adapter, world)
    else
      match world.emit accepts terms (.capabilityDegraded ⟨"resume_session", terms.adapter, "fresh_session"⟩) with
      | none => (.error .audit, world)
      | some world => (if stretch.spawns then .ok () else .error .adapter, world)

/-- Whether a read was cut short, by a cancel or a budget. -/
def cutShort (terminal : Option DispatchOutcome) (cancelled : Bool) : Bool :=
  match terminal with
  | some (.budgetExceeded _) => true
  | _ => cancelled

/-- Reads a session to its end, and ends it where the read was cut short. -/
def readAndEnd (stretch : Stretch) (world : World) :
    Except DispatchError (Option DispatchOutcome × Bool) × AgentEventCtx :=
  match readStream accepts terms { arrivals := world.arrivals, log := world.log } stretch.wakes with
  | (.error error, ctx) => (.error error, ctx)
  | (.ok (terminal, cancelled), ctx) =>
    if cutShort terminal cancelled && !stretch.stops then (.error (.notStopped true ctx.totals.tokens), ctx)
    else (.ok (terminal, cancelled), ctx)

/-- Reads an opened session, releases it, and says what it spent and whether it ended on a lost
    service.  It is released whatever the read and the end did. -/
def readAndRelease (stretch : Stretch) (world : World) :
    Except DispatchError (Dispatched × Bool) × World :=
  let ended := readAndEnd accepts terms stretch world
  let left := ended.2.world
  match ended.1, stretch.releases with
  | .ok _, false => (.error .release, left)
  | .error (.notStopped _ tokens), released => (.error (.notStopped released tokens), left)
  | .error error, _ => (.error error, left)
  | .ok (terminal, cancelled), true =>
    let totals := ended.2.totals
    let dispatched (outcome : DispatchOutcome) : Dispatched × Bool :=
      (⟨outcome, totals.tokens, totals.opened.toList⟩, totals.cutOff)
    if cancelled then (.ok (dispatched .cancelled), left)
    else
      match terminal with
      | some outcome => (.ok (dispatched outcome), left)
      | none => (if stretch.exits then .ok (dispatched .crashed) else .error .adapter, left)

/-- An opened session drained: read and released, and the summary of its rail's calls written.  A
    summary the log does not take is kept with the rail. -/
def drain (stretch : Stretch) (world : World) : Except DispatchError (Dispatched × Bool) × World :=
  let drained := readAndRelease accepts terms stretch world
  match stretch.summary with
  | none => drained
  | some summary => (drained.1, (drained.2.emit accepts terms (.railSummary summary)).getD drained.2)

/-- One session, from before it opens to its end. -/
def streamSession (canResume : Bool) (resume : Option Resume) (stretch : Stretch) (world : World) :
    Except DispatchError (Dispatched × Bool) × World :=
  match (if terms.audited then stretch.settled else some true) with
  | none => (.error .audit, world)
  | some false => (.ok (⟨.cancelled, 0, []⟩, false), world)
  | some true =>
    match recordCapAtSessionEnd accepts terms world with
    | none => (.error .audit, world)
    | some world =>
      match spawnOrResume accepts terms canResume stretch world resume with
      | (.error error, world) => (.error error, world)
      | (.ok (), world) => drain accepts terms stretch world

/-! ## The dispatch -/

/-- How a wait for the service ended. -/
inductive Back where
  | answered | cancelled | never
  deriving DecidableEq

/-- What a session that lost its service meets: the time it had worked, how the wait for the service
    ended, whether the host settled after it, and what the next session meets. -/
structure Lost where
  worked : Nat
  back : Back
  settled : Option Bool
  next : Stretch

/-- A service that stays away. -/
def Lost.never (worked : Nat) : Lost :=
  ⟨worked, .never, none, ⟨none, false, false, [], false, false, false, none⟩⟩

/-- What is left of a bound, where there is one; none when nothing is. -/
def leftOf {α : Type} [LT α] [DecidableLT α] [Sub α] (whole : Option α) (used : α) :
    Option (Option α) :=
  match whole with
  | none => some none
  | some whole => if used < whole then some (some (whole - used)) else none

/-- The budget a session that already spent `tokens` over `worked` has left; none when nothing is. -/
def remaining (budget : Budget) (tokens : TokenUsage) (worked : Nat) : Option Budget :=
  (leftOf budget.maxTokens tokens.total).bind fun maxTokens =>
    (leftOf budget.timeout worked).map fun timeout => ⟨maxTokens, timeout⟩

/-- One session's dispatch, as the stretches it was picked back up in add up. -/
def joined (before after : Dispatched) : Dispatched :=
  ⟨after.outcome, before.tokens + after.tokens, before.sessions ++ after.sessions⟩

/-- The same error, with `earlier` added to what a stopped session reported. -/
def DispatchError.withEarlierSpend (earlier : TokenUsage) : DispatchError → DispatchError
  | notStopped released tokens => notStopped released (earlier + tokens)
  | other => other

/-- Says the session lost its service, waits for it, and says when it answers again. -/
def reconnect (lost : Lost) (world : World) : Except DispatchError Back × World :=
  match world.emit accepts terms .serviceUnreachable with
  | none => (.error .audit, world)
  | some world =>
    if lost.back ≠ .answered then (.ok lost.back, world)
    else
      match (if terms.audited then lost.settled else some true) with
      | none => (.error .audit, world)
      | some false => (.ok .cancelled, world)
      | some true =>
        match world.emit accepts terms .serviceReachable with
        | none => (.error .audit, world)
        | some world => (.ok .answered, world)

/-- Whether a dispatch whose session ended so is picked back up: how it is, or what the dispatch
    comes to. -/
def pickUp (dispatched : Dispatched) (cutOff canResume : Bool) (lost : Lost) (world : World) :
    (SessionId × Budget ⊕ Except DispatchError Dispatched) × World :=
  let over_ : (SessionId × Budget ⊕ Except DispatchError Dispatched) × World :=
    (.inr (.ok dispatched), world)
  if !(cutOff && canResume) then over_
  else
    match dispatched.sessions.getLast?, remaining terms.budget dispatched.tokens lost.worked,
      dispatched.outcome with
    | some session, some budget, .failed _ _ =>
      match reconnect accepts terms lost world with
      | (.error error, world) => (.inr (.error error), world)
      | (.ok .answered, world) => (.inl (session, budget), world)
      | (.ok .cancelled, world) => (.inr (.ok { dispatched with outcome := .cancelled }), world)
      | (.ok .never, world) => (.inr (.ok dispatched), world)
    | _, _, _ => over_

/-- The dispatch from a session's end on, through each time it loses its service: where no more is
    told of it, the service stays away, and its session had worked for `worked`. -/
def goOn (canResume : Bool) (worked : Nat) :
    Dispatched → Bool → List Lost → World → Except DispatchError Dispatched × World
  | dispatched, cutOff, [], world =>
    match pickUp accepts terms dispatched cutOff canResume (.never worked) world with
    | (.inr result, world) => (result, world)
    | (.inl _, world) => (.ok dispatched, world)
  | dispatched, cutOff, lost :: losts, world =>
    match pickUp accepts terms dispatched cutOff canResume lost world with
    | (.inr result, world) => (result, world)
    | (.inl (session, budget), world) =>
      match streamSession accepts { terms with budget } canResume (some ⟨session, true⟩) lost.next
        world with
      | (.error error, world) => (.error (error.withEarlierSpend dispatched.tokens), world)
      | (.ok (next, cutOff), world) => goOn canResume worked (joined dispatched next) cutOff losts world

/-- Opens a session and drives it to its end. -/
def dispatchSession (canResume : Bool) (resume : Option Resume) (first : Stretch)
    (losts : List Lost) (worked : Nat) (log : List SessionEvent) :
    Except DispatchError Dispatched × World :=
  match streamSession accepts terms canResume resume first { log } with
  | (.error error, world) => (.error error, world)
  | (.ok (dispatched, cutOff), world) => goOn accepts terms canResume worked dispatched cutOff losts world

end

/-! ## What the log adds up to -/

/-- What an entry of the audit trail says a session spent. -/
def spendsIn : SessionEvent → TokenUsage
  | .message ⟨.usage, _, input, output, cached⟩ => ⟨input.getD 0, output.getD 0, cached⟩
  | _ => 0

def spentIn (log : List SessionEvent) : TokenUsage := (log.map spendsIn).sum

theorem spentIn_append (log more : List SessionEvent) :
    spentIn (log ++ more) = spentIn log + spentIn more := by
  rw [spentIn, List.map_append, List.sum_append]
  rfl

/-- A log grown by entries whose usage adds up to `spent`; one nobody records stays as it is. -/
def Tells (audited : Bool) (log log' : List SessionEvent) (spent : TokenUsage) : Prop :=
  ∃ new, log' = log ++ new ∧ (audited = true → spentIn new = spent) ∧ (audited = false → new = [])

theorem Tells.refl (audited : Bool) (log : List SessionEvent) : Tells audited log log 0 :=
  ⟨[], (List.append_nil log).symm, fun _ => rfl, fun _ => rfl⟩

theorem Tells.trans {audited : Bool} {log log' log'' : List SessionEvent} {spent more : TokenUsage}
    (h : Tells audited log log' spent) (h' : Tells audited log' log'' more) :
    Tells audited log log'' (spent + more) := by
  obtain ⟨new, rfl, hspent, hnone⟩ := h
  obtain ⟨new', rfl, hspent', hnone'⟩ := h'
  refine ⟨new ++ new', List.append_assoc .., fun haudited => ?_, fun haudited => ?_⟩
  · rw [spentIn_append, hspent haudited, hspent' haudited]
  · rw [hnone haudited, hnone' haudited, List.append_nil]

section
variable {accepts : List SessionEvent → SessionEvent → Bool} {terms : Terms}

theorem tells_emitAudit {audited : Bool} {log log' : List SessionEvent} {event : SessionEvent}
    (h : emitAudit accepts audited log event = some log') :
    Tells audited log log' (spendsIn event) := by
  rw [emitAudit] at h
  cases audited with
  | false =>
    obtain rfl : log = log' := Option.some.inj h
    exact ⟨[], (List.append_nil log).symm, fun haudited => (by cases haudited), fun _ => rfl⟩
  | true =>
    rw [if_neg (show ¬ (!true) = true from Bool.false_ne_true)] at h
    split at h
    · obtain rfl : log ++ [event] = log' := Option.some.inj h
      exact ⟨[event], rfl, fun _ => add_zero _, fun haudited => (by cases haudited)⟩
    · cases h

/-- What one event does to the fold: the store refuses it and it is lost; or it is recorded and the
    reading goes on; or it is a report, counted once it is recorded; or it ends the stream. -/
inductive Applied (terms : Terms) (ctx : AgentEventCtx) (event : AgentEvent) :
    Except DispatchError (Option DispatchOutcome) × AgentEventCtx → Prop
  | refused {ctx' : AgentEventCtx} (htokens : ctx'.totals.tokens = ctx.totals.tokens)
      (hlog : ctx'.log = ctx.log) : Applied terms ctx event (.error .audit, ctx')
  | recorded {ctx' : AgentEventCtx} (htokens : ctx'.totals.tokens = ctx.totals.tokens)
      (hlog : Tells terms.audited ctx.log ctx'.log 0) : Applied terms ctx event (.ok none, ctx')
  | reported {ctx' : AgentEventCtx} (htokens : ctx'.totals.tokens = ctx.totals.tokens + event.spends)
      (hlog : Tells terms.audited ctx.log ctx'.log event.spends) :
      Applied terms ctx event
        (.ok (if terms.countsCapMidSession then overCap terms.budget.maxTokens ctx'.totals.tokens.total
          else none), ctx')
  | done (summary : String) : Applied terms ctx event (.ok (some (completed terms ctx summary)), ctx)
  | failed {ctx' : AgentEventCtx} {error : String} {cause : FailureCause}
      (htokens : ctx'.totals.tokens = ctx.totals.tokens) (hlog : ctx'.log = ctx.log) :
      Applied terms ctx event (.ok (some (.failed error cause)), ctx')

/-- An entry that reports nothing is refused or recorded. -/
theorem applied_said {ctx ctx' : AgentEventCtx} {event : AgentEvent} {entry : SessionEvent}
    (htokens : ctx'.totals.tokens = ctx.totals.tokens) (hlog : ctx'.log = ctx.log)
    (hentry : spendsIn entry = 0) : Applied terms ctx event (said accepts terms ctx' entry) := by
  rw [said]
  cases hemit : emitAudit accepts terms.audited ctx'.log entry with
  | none => exact .refused htokens hlog
  | some log =>
    refine .recorded htokens ?_
    rw [← hlog, ← hentry]
    exact tells_emitAudit hemit

/-- **What one event does to the fold.** -/
theorem applied (ctx : AgentEventCtx) (event : AgentEvent) :
    Applied terms ctx event (applyAgentEvent accepts terms ctx event) := by
  cases event with
  | sessionOpened sessionId model => exact applied_said rfl rfl rfl
  | runToolRejected tool =>
    rw [applyAgentEvent, rejectedTool]
    dsimp only
    cases ctx.totals.opened with
    | none => exact .recorded rfl (Tells.refl _ _)
    | some sessionId => exact applied_said rfl rfl rfl
  | toolUse name => exact applied_said rfl rfl rfl
  | note text => exact applied_said rfl rfl rfl
  | usage input output cached =>
    rw [applyAgentEvent, usage]
    cases hemit : emitAudit accepts terms.audited ctx.log
        (.message ⟨.usage, none, input, output, cached⟩) with
    | none => exact .refused rfl rfl
    | some log =>
      let counted : AgentEventCtx := { ctx with
        totals.tokens := ctx.totals.tokens + ⟨input.getD 0, output.getD 0, cached⟩, log }
      have htells : Tells terms.audited ctx.log counted.log
        (AgentEvent.usage input output cached).spends := tells_emitAudit hemit
      have htokens : counted.totals.tokens =
        ctx.totals.tokens + (AgentEvent.usage input output cached).spends := rfl
      exact @Applied.reported terms ctx _ counted htokens htells
  | completed summary => exact Applied.done summary
  | failed error cause => exact Applied.failed rfl rfl

/-- What a read, however it ends, says it spent is what its entries add up to. -/
theorem tells_readStream (ctx : AgentEventCtx) (wakes : List Wake) :
    ∃ spent, (readStream accepts terms ctx wakes).2.totals.tokens = ctx.totals.tokens + spent ∧
      Tells terms.audited ctx.log (readStream accepts terms ctx wakes).2.log spent := by
  have hstays : ∃ spent, ctx.totals.tokens = ctx.totals.tokens + spent ∧
      Tells terms.audited ctx.log ctx.log spent := ⟨0, (add_zero _).symm, Tells.refl _ _⟩
  induction wakes generalizing ctx with
  | nil => exact hstays
  | cons wake wakes ih =>
    cases wake with
    | cancelled => exact hstays
    | deadline =>
      rw [readStream]
      cases terms.budget.timeout with
      | none => exact ih ctx hstays
      | some timeout => exact hstays
    | reached tool => exact ih { ctx with arrivals := ctx.arrivals.reached tool } hstays
    | answered tool => exact ih { ctx with arrivals := ctx.arrivals.answered tool } hstays
    | event event =>
      have happlied := @applied accepts terms ctx event
      rw [readStream]
      generalize applyAgentEvent accepts terms ctx event = result at happlied
      have hgoes : ∀ ctx' : AgentEventCtx, ∀ spent, ctx'.totals.tokens = ctx.totals.tokens + spent →
          Tells terms.audited ctx.log ctx'.log spent →
          ∃ spent, (readStream accepts terms ctx' wakes).2.totals.tokens =
              ctx.totals.tokens + spent ∧
            Tells terms.audited ctx.log (readStream accepts terms ctx' wakes).2.log spent := by
        intro ctx' spent htokens hlog
        obtain ⟨more, hmore, hlog'⟩ := ih ctx' ⟨0, (add_zero _).symm, Tells.refl _ _⟩
        exact ⟨spent + more, by rw [hmore, htokens, add_assoc], hlog.trans hlog'⟩
      cases happlied with
      | refused htokens hlog => exact ⟨0, by rw [add_zero]; exact htokens, hlog ▸ Tells.refl _ _⟩
      | recorded htokens hlog => exact hgoes _ 0 (by rw [htokens, add_zero]) hlog
      | @reported ctx' htokens hlog =>
        cases (if terms.countsCapMidSession then
            overCap terms.budget.maxTokens ctx'.totals.tokens.total else none) with
        | none => exact hgoes ctx' _ htokens hlog
        | some outcome => exact ⟨_, htokens, hlog⟩
      | done summary => exact hstays
      | failed htokens hlog => exact ⟨0, by rw [add_zero]; exact htokens, hlog ▸ Tells.refl _ _⟩

/-- What a result says a dispatch spent: a stop that failed says it too. -/
def Says (result : Except DispatchError Dispatched) (spent : TokenUsage) : Prop :=
  match result with
  | .ok dispatched => dispatched.tokens = spent
  | .error (.notStopped _ tokens) => tokens = spent
  | .error _ => True

theorem tells_emit {world world' : World} {event : SessionEvent} (hquiet : spendsIn event = 0)
    (h : world.emit accepts terms event = some world') :
    Tells terms.audited world.log world'.log 0 := by
  rw [World.emit] at h
  obtain ⟨log, hlog, rfl⟩ := Option.map_eq_some_iff.mp h
  exact hquiet ▸ tells_emitAudit hlog

/-- What a session comes to, of how its read ended: its outcome, the stop that failed, or an error that
    says nothing of what it spent. -/
inductive Released (ctx : AgentEventCtx) :
    Except DispatchError (Option DispatchOutcome × Bool) → Except DispatchError (Dispatched × Bool) → Prop
  | ended (terminal : Option DispatchOutcome) (cancelled : Bool) :
      Released ctx (.ok (terminal, cancelled))
        (.ok (⟨if cancelled then .cancelled else terminal.getD .crashed, ctx.totals.tokens,
          ctx.totals.opened.toList⟩, ctx.totals.cutOff))
  | notStopped (released : Bool) {read : Except DispatchError (Option DispatchOutcome × Bool)} :
      Released ctx read (.error (.notStopped released ctx.totals.tokens))
  | failed {error : DispatchError} {read : Except DispatchError (Option DispatchOutcome × Bool)}
      (hplain : ∀ released tokens, error ≠ .notStopped released tokens) :
      Released ctx read (.error error)

theorem readStream_plain (ctx : AgentEventCtx) (wakes : List Wake) {error : DispatchError}
    (h : (readStream accepts terms ctx wakes).1 = .error error) : error = .audit := by
  induction wakes generalizing ctx with
  | nil => cases h
  | cons wake wakes ih =>
    cases wake with
    | cancelled => cases h
    | deadline =>
      rw [readStream] at h
      cases htimeout : terms.budget.timeout with
      | none => rw [htimeout] at h; exact ih ctx h
      | some timeout => rw [htimeout] at h; cases h
    | reached tool => exact ih { ctx with arrivals := ctx.arrivals.reached tool } h
    | answered tool => exact ih { ctx with arrivals := ctx.arrivals.answered tool } h
    | event event =>
      have happlied := @applied accepts terms ctx event
      rw [readStream] at h
      generalize applyAgentEvent accepts terms ctx event = result at happlied h
      cases happlied with
      | refused htokens hlog => exact (Except.error.inj h).symm
      | recorded htokens hlog => exact ih _ h
      | @reported ctx' htokens hlog =>
        revert h
        cases (if terms.countsCapMidSession then
            overCap terms.budget.maxTokens ctx'.totals.tokens.total else none) with
        | none => exact ih ctx'
        | some outcome => exact fun h => (by cases h)
      | done summary => cases h
      | failed htokens hlog => cases h

/-- What a session comes to, of its read. -/
theorem released (stretch : Stretch) (world : World) :
    let read := readStream accepts terms { arrivals := world.arrivals, log := world.log } stretch.wakes
    Released read.2 read.1 (readAndRelease accepts terms stretch world).1 ∧
      (readAndRelease accepts terms stretch world).2 = read.2.world := by
  intro read
  have hread : readStream accepts terms { arrivals := world.arrivals, log := world.log }
    stretch.wakes = read := rfl
  rw [readAndRelease, readAndEnd, hread]
  have hplain : ∀ error, read.1 = .error error → error = .audit :=
    fun error => readStream_plain _ _
  obtain ⟨result, ctx⟩ := read
  cases result with
  | error error =>
    obtain rfl := hplain error rfl
    have hnever : ∀ released tokens, DispatchError.audit ≠ .notStopped released tokens :=
      fun _ _ h => (by cases h)
    cases stretch.releases <;> exact ⟨.failed hnever, rfl⟩
  | ok ended =>
    obtain ⟨terminal, cancelled⟩ := ended
    dsimp only
    cases (cutShort terminal cancelled && !stretch.stops) with
    | true => cases stretch.releases <;> exact ⟨.notStopped _, rfl⟩
    | false =>
      cases stretch.releases with
      | false => exact ⟨.failed fun _ _ h => (by cases h), rfl⟩
      | true =>
        cases cancelled with
        | true => exact ⟨.ended terminal true, rfl⟩
        | false =>
          cases terminal with
          | some outcome => exact ⟨.ended (some outcome) false, rfl⟩
          | none =>
            cases stretch.exits with
            | true => exact ⟨.ended none false, rfl⟩
            | false => exact ⟨.failed fun _ _ h => (by cases h), rfl⟩

/-- What one session comes to: it never opened, and spent nothing; or it was read and released,
    between entries that report nothing. -/
inductive Streamed (accepts : List SessionEvent → SessionEvent → Bool) (terms : Terms)
    (stretch : Stretch) (world : World) : Except DispatchError (Dispatched × Bool) × World → Prop
  | cancelled : Streamed accepts terms stretch world (.ok (⟨.cancelled, 0, []⟩, false), world)
  | failed {error : DispatchError} {world' : World}
      (hplain : ∀ released tokens, error ≠ .notStopped released tokens)
      (hlog : Tells terms.audited world.log world'.log 0) :
      Streamed accepts terms stretch world (.error error, world')
  | read {world' world'' : World} (hopen : Tells terms.audited world.log world'.log 0)
      (hclose : Tells terms.audited (readAndRelease accepts terms stretch world').2.log world''.log 0) :
      Streamed accepts terms stretch world ((readAndRelease accepts terms stretch world').1, world'')

theorem tells_recordCap {world world' : World}
    (h : recordCapAtSessionEnd accepts terms world = some world') :
    Tells terms.audited world.log world'.log 0 := by
  rw [recordCapAtSessionEnd] at h
  split at h
  · obtain rfl := Option.some.inj h
    exact Tells.refl _ _
  · exact tells_emit rfl h

/-- Opening a session reports nothing, and its failures say nothing of what was spent. -/
theorem tells_spawnOrResume (canResume : Bool) (stretch : Stretch) (world : World)
    (resume : Option Resume) :
    Tells terms.audited world.log (spawnOrResume accepts terms canResume stretch world resume).2.log 0 ∧
      ∀ released tokens,
        (spawnOrResume accepts terms canResume stretch world resume).1 ≠ .error (.notStopped released tokens) := by
  have hspawn : ∀ released tokens, (if stretch.spawns then Except.ok () else .error DispatchError.adapter) ≠
      .error (.notStopped released tokens) := by
    intro released tokens
    cases stretch.spawns <;> exact fun h => (by cases h)
  cases resume with
  | none => exact ⟨Tells.refl _ _, hspawn⟩
  | some resume =>
    rw [spawnOrResume]
    split
    · exact ⟨Tells.refl _ _, fun _ _ h => (by cases h)⟩
    split
    · exact ⟨Tells.refl _ _, fun _ _ h => (by cases h)⟩
    · cases hemit : world.emit accepts terms
          (.capabilityDegraded ⟨"resume_session", terms.adapter, "fresh_session"⟩) with
      | none => exact ⟨Tells.refl _ _, fun _ _ h => (by cases h)⟩
      | some world' => exact ⟨tells_emit rfl hemit, hspawn⟩

theorem tells_drain (stretch : Stretch) (world : World) :
    (drain accepts terms stretch world).1 = (readAndRelease accepts terms stretch world).1 ∧
      Tells terms.audited (readAndRelease accepts terms stretch world).2.log
        (drain accepts terms stretch world).2.log 0 := by
  rw [drain]
  cases stretch.summary with
  | none => exact ⟨rfl, Tells.refl _ _⟩
  | some summary =>
    refine ⟨rfl, ?_⟩
    dsimp only
    cases hemit : (readAndRelease accepts terms stretch world).2.emit accepts terms
        (.railSummary summary) with
    | none => exact Tells.refl _ _
    | some world' => exact tells_emit rfl hemit

/-- **What one session comes to.** -/
theorem streamed (canResume : Bool) (resume : Option Resume) (stretch : Stretch) (world : World) :
    Streamed accepts terms stretch world
      (streamSession accepts terms canResume resume stretch world) := by
  have haudit : ∀ released tokens, DispatchError.audit ≠ .notStopped released tokens :=
    fun _ _ h => (by cases h)
  rw [streamSession]
  cases (if terms.audited then stretch.settled else some true) with
  | none => exact .failed haudit (Tells.refl _ _)
  | some settled =>
    cases settled with
    | false => exact .cancelled
    | true =>
      dsimp only
      cases hcap : recordCapAtSessionEnd accepts terms world with
      | none => exact .failed haudit (Tells.refl _ _)
      | some capped =>
        have hopened := tells_recordCap hcap
        dsimp only
        obtain ⟨hspawned, hplain⟩ :=
          @tells_spawnOrResume accepts terms canResume stretch capped resume
        cases hspawn : spawnOrResume accepts terms canResume stretch capped resume with
        | mk result spawned =>
          rw [hspawn] at hspawned hplain
          have hopen : Tells terms.audited world.log spawned.log 0 := by
            simpa using hopened.trans hspawned
          cases result with
          | error error =>
            exact .failed (fun released tokens h => hplain released tokens (congrArg _ h)) hopen
          | ok opened =>
            obtain ⟨hresult, hclose⟩ := @tells_drain accepts terms stretch spawned
            have hread := @Streamed.read accepts terms stretch world spawned _ hopen hclose
            rw [← hresult] at hread
            exact hread

/-- What one session says it spent is what its entries add up to. -/
theorem tells_streamSession (canResume : Bool) (resume : Option Resume) (stretch : Stretch)
    (world : World) :
    ∃ spent, Says ((streamSession accepts terms canResume resume stretch world).1.map Prod.fst) spent ∧
      Tells terms.audited world.log
        (streamSession accepts terms canResume resume stretch world).2.log spent := by
  have hstreamed := @streamed accepts terms canResume resume stretch world
  generalize streamSession accepts terms canResume resume stretch world = result at hstreamed
  cases hstreamed with
  | cancelled => exact ⟨0, rfl, Tells.refl _ _⟩
  | @failed error world' hplain hlog =>
    refine ⟨0, ?_, hlog⟩
    cases error with
    | notStopped released tokens => exact absurd rfl (hplain released tokens)
    | _ => trivial
  | @read world' world'' hopen hclose =>
    obtain ⟨spent, htokens, hlog⟩ :=
      @tells_readStream accepts terms { arrivals := world'.arrivals, log := world'.log } stretch.wakes
    obtain ⟨hreleased, hworld⟩ := @released accepts terms stretch world'
    rw [hworld] at hclose
    have hsame : (readStream accepts terms { arrivals := world'.arrivals, log := world'.log }
        stretch.wakes).2.totals.tokens = spent := htokens.trans (zero_add spent)
    refine ⟨spent, ?_, by simpa using (hopen.trans hlog).trans hclose⟩
    dsimp only
    generalize (readAndRelease accepts terms stretch world').1 = result at hreleased
    generalize (readStream accepts terms { arrivals := world'.arrivals, log := world'.log }
      stretch.wakes).1 = read at hreleased
    cases hreleased with
    | ended terminal cancelled => exact hsame
    | notStopped released => exact hsame
    | @failed error _ hplain =>
      cases error with
      | notStopped released tokens => exact absurd rfl (hplain released tokens)
      | _ => trivial

theorem tells_reconnect (lost : Lost) (world : World) :
    Tells terms.audited world.log (reconnect accepts terms lost world).2.log 0 ∧
      ∀ error, (reconnect accepts terms lost world).1 = .error error → error = .audit := by
  have hnone : ∀ back : Back, ∀ error : DispatchError,
      (.ok back : Except DispatchError Back) = .error error → error = .audit :=
    fun _ _ h => (by cases h)
  have haudit : ∀ error : DispatchError,
      (.error .audit : Except DispatchError Back) = .error error → error = .audit :=
    fun _ h => (Except.error.inj h).symm
  rw [reconnect]
  cases hemit : world.emit accepts terms .serviceUnreachable with
  | none => exact ⟨Tells.refl _ _, haudit⟩
  | some lostAt =>
    have hlost := tells_emit rfl hemit
    dsimp only
    split
    · exact ⟨hlost, hnone _⟩
    · cases (if terms.audited then lost.settled else some true) with
      | none => exact ⟨hlost, haudit⟩
      | some settled =>
        cases settled with
        | false => exact ⟨hlost, hnone _⟩
        | true =>
          dsimp only
          cases hback : lostAt.emit accepts terms .serviceReachable with
          | none => exact ⟨hlost, haudit⟩
          | some backAt => exact ⟨by simpa using hlost.trans (tells_emit rfl hback), hnone _⟩

/-- What picking a dispatch up comes to: its session goes on with what its budget leaves it; or the
    dispatch ends with what it already spent, cancelled or as it stood; or an entry is refused. -/
inductive PickedUp (terms : Terms) (dispatched : Dispatched) (worked : Nat) (world : World) :
    (SessionId × Budget ⊕ Except DispatchError Dispatched) × World → Prop
  | goesOn {session : SessionId} {budget : Budget} {world' : World}
      (hbudget : remaining terms.budget dispatched.tokens worked = some budget)
      (hlog : Tells terms.audited world.log world'.log 0) :
      PickedUp terms dispatched worked world (.inl (session, budget), world')
  | ends {outcome : DispatchOutcome} {world' : World}
      (houtcome : outcome = dispatched.outcome ∨
        outcome = .cancelled ∧ ∃ error cause, dispatched.outcome = .failed error cause)
      (hlog : Tells terms.audited world.log world'.log 0) :
      PickedUp terms dispatched worked world (.inr (.ok { dispatched with outcome }), world')
  | refused {world' : World} (hlog : Tells terms.audited world.log world'.log 0) :
      PickedUp terms dispatched worked world (.inr (.error .audit), world')

theorem pickedUp (dispatched : Dispatched) (cutOff canResume : Bool) (lost : Lost) (world : World) :
    PickedUp terms dispatched lost.worked world
      (pickUp accepts terms dispatched cutOff canResume lost world) := by
  have hover : PickedUp terms dispatched lost.worked world (.inr (.ok dispatched), world) :=
    .ends (.inl rfl) (Tells.refl _ _)
  rw [pickUp]
  split
  · exact hover
  split
  · next session budget error cause _ hbudget hfailed =>
    obtain ⟨hlog, hplain⟩ := @tells_reconnect accepts terms lost world
    cases hback : reconnect accepts terms lost world with
    | mk result world' =>
      rw [hback] at hlog hplain
      cases result with
      | error error =>
        obtain rfl := hplain error rfl
        exact .refused hlog
      | ok back =>
        cases back with
        | answered => exact .goesOn hbudget hlog
        | cancelled => exact .ends (.inr ⟨rfl, error, cause, hfailed⟩) hlog
        | never => exact .ends (.inl rfl) hlog
  · exact hover

/-- From a session's end on, what the dispatch says it spent is what it had spent and what its entries
    add to it. -/
theorem tells_goOn (canResume : Bool) (worked : Nat) (losts : List Lost) (dispatched : Dispatched)
    (cutOff : Bool) (world : World) (terms : Terms) :
    ∃ spent, Says (goOn accepts terms canResume worked dispatched cutOff losts world).1
        (dispatched.tokens + spent) ∧
      Tells terms.audited world.log
        (goOn accepts terms canResume worked dispatched cutOff losts world).2.log spent := by
  induction losts generalizing dispatched cutOff world with
  | nil =>
    have hpicked := @pickedUp accepts terms dispatched cutOff canResume (.never worked) world
    rw [goOn]
    generalize pickUp accepts terms dispatched cutOff canResume (.never worked) world = result at hpicked
    cases hpicked with
    | goesOn hbudget hlog => exact ⟨0, (add_zero _).symm, hlog⟩
    | ends houtcome hlog => exact ⟨0, (add_zero _).symm, hlog⟩
    | refused hlog => exact ⟨0, trivial, hlog⟩
  | cons lost losts ih =>
    have hpicked := @pickedUp accepts terms dispatched cutOff canResume lost world
    rw [goOn]
    generalize pickUp accepts terms dispatched cutOff canResume lost world = result at hpicked
    cases hpicked with
    | ends houtcome hlog => exact ⟨0, (add_zero _).symm, hlog⟩
    | refused hlog => exact ⟨0, trivial, hlog⟩
    | @goesOn session budget world' hbudget hlog =>
      dsimp only
      obtain ⟨spent, hsays, hspent⟩ := @tells_streamSession accepts { terms with budget } canResume
        (some ⟨session, true⟩) lost.next world'
      have hspent' := hlog.trans hspent
      rw [zero_add] at hspent'
      cases hstream : streamSession accepts { terms with budget } canResume (some ⟨session, true⟩)
          lost.next world' with
      | mk result world'' =>
        rw [hstream] at hsays hspent'
        cases result with
        | error error =>
          refine ⟨spent, ?_, hspent'⟩
          cases error with
          | notStopped released tokens => exact congrArg (dispatched.tokens + ·) hsays
          | _ => trivial
        | ok next =>
          obtain ⟨more, hmore, hlog'⟩ := ih (joined dispatched next.1) next.2 world''
          refine ⟨spent + more, ?_, hspent'.trans hlog'⟩
          have htokens : next.1.tokens = spent := hsays
          rw [← add_assoc, ← htokens]
          exact hmore

/-- **What a dispatch says it spent is what its log says it spent**: the usage messages it appended,
    over every stretch its session was picked back up in, add up to what it reports, whatever the
    store refused and however it ended. -/
theorem dispatch_told (terms : Terms) (canResume : Bool) (resume : Option Resume) (first : Stretch)
    (losts : List Lost) (worked : Nat) (log : List SessionEvent) :
    ∃ spent, Says (dispatchSession accepts terms canResume resume first losts worked log).1 spent ∧
      Tells terms.audited log
        (dispatchSession accepts terms canResume resume first losts worked log).2.log spent := by
  rw [dispatchSession]
  obtain ⟨spent, hsays, hspent⟩ := @tells_streamSession accepts terms canResume resume first { log }
  cases hstream : streamSession accepts terms canResume resume first { log } with
  | mk streamed world =>
    rw [hstream] at hsays hspent
    cases streamed with
    | error error =>
      refine ⟨spent, ?_, hspent⟩
      cases error with
      | notStopped released tokens => exact hsays
      | _ => trivial
    | ok opened =>
      obtain ⟨more, hmore, hlog⟩ :=
        @tells_goOn accepts canResume worked losts opened.1 opened.2 world terms
      have htokens : opened.1.tokens = spent := hsays
      exact ⟨spent + more, htokens ▸ hmore, hspent.trans hlog⟩

end

/-! ## The cap -/

/-- Input plus output, as a number. -/
def cost (tokens : TokenUsage) : Nat := tokens.input.toNat + tokens.output.toNat

theorem total_toNat {tokens : TokenUsage} (h : cost tokens < 2 ^ 64) :
    tokens.total.toNat = cost tokens := by
  unfold cost at h
  rw [TokenUsage.total, UInt64.toNat_add, Nat.mod_eq_of_lt h]
  rfl

theorem cost_add {tokens more : TokenUsage} (h : cost tokens + cost more < 2 ^ 64) :
    cost (tokens + more) = cost tokens + cost more := by
  unfold cost at h ⊢
  rw [TokenUsage.add_input, TokenUsage.add_output, UInt64.toNat_add, UInt64.toNat_add,
    Nat.mod_eq_of_lt (by omega), Nat.mod_eq_of_lt (by omega)]
  omega

/-- What one wake reports the session spent. -/
def Wake.report : Wake → Nat
  | .event e => cost e.spends
  | _ => 0

/-- What all of some wakes report. -/
def reported (wakes : List Wake) : Nat := (wakes.map Wake.report).sum

/-- A spending held to a cap: what completed is within it; what the cap stopped is past it, by as much
    as its last stretch was past what was left; and one counted as it goes is within it, or the cap
    stopped it, and its last report alone took it past. -/
structure Capped (max : Nat) (counts : Bool) (reports : List Nat) (outcome : DispatchOutcome)
    (total : Nat) : Prop where
  completed : ∀ summary, outcome = .completed summary → total ≤ max
  stopped : ∀ used cap, outcome = .budgetExceeded (.tokenBudget used cap) →
    cap < used ∧ used + max = total + cap
  counted : counts = true → total ≤ max ∨
    ((∃ used cap, outcome = .budgetExceeded (.tokenBudget used cap)) ∧
      ∃ report ∈ reports, total ≤ max + report)

/-- What is within the cap and no completion is held to it. -/
theorem Capped.within {max : Nat} {counts : Bool} {reports : List Nat} {outcome : DispatchOutcome}
    {total : Nat} (hwithin : counts = true → total ≤ max)
    (hcompleted : ∀ summary, outcome ≠ .completed summary)
    (hstopped : ∀ used cap, outcome ≠ .budgetExceeded (.tokenBudget used cap)) :
    Capped max counts reports outcome total where
  completed summary h := absurd h (hcompleted summary)
  stopped used cap h := absurd h (hstopped used cap)
  counted h := .inl (hwithin h)

theorem Capped.mono {max : Nat} {counts : Bool} {reports more : List Nat} {outcome : DispatchOutcome}
    {total : Nat} (h : Capped max counts reports outcome total) (hsub : reports ⊆ more) :
    Capped max counts more outcome total where
  completed := h.completed
  stopped := h.stopped
  counted hcounts := (h.counted hcounts).imp_right fun hpast =>
    ⟨hpast.1, hpast.2.imp fun _ hreport => ⟨hsub hreport.1, hreport.2⟩⟩

/-- A stretch held to what is left of a cap holds the whole to the cap. -/
theorem Capped.after {max before : Nat} {counts : Bool} {reports : List Nat}
    {outcome : DispatchOutcome} {total : Nat} (hbefore : before < max)
    (h : Capped (max - before) counts reports outcome total) :
    Capped max counts reports outcome (before + total) where
  completed summary houtcome := by
    have := h.completed summary houtcome
    omega
  stopped used cap houtcome := by
    obtain ⟨hpast, hsum⟩ := h.stopped used cap houtcome
    exact ⟨hpast, by omega⟩
  counted hcounts := by
    rcases h.counted hcounts with hwithin | ⟨hstopped, report, hmem, hreport⟩
    · exact .inl (by omega)
    · exact .inr ⟨hstopped, report, hmem, by omega⟩

/-- A dispatch cut off and cancelled is held as it was. -/
theorem Capped.cancelled {max : Nat} {counts : Bool} {reports : List Nat} {outcome : DispatchOutcome}
    {total : Nat} (h : Capped max counts reports outcome total)
    (hfailed : ∃ error cause, outcome = .failed error cause) :
    Capped max counts reports .cancelled total := by
  refine .within (fun hcounts => ?_) (fun _ h => (by cases h)) fun _ _ h => (by cases h)
  rcases h.counted hcounts with hwithin | ⟨⟨used, cap, hstopped⟩, -⟩
  · exact hwithin
  · obtain ⟨error, cause, rfl⟩ := hfailed
    cases hstopped

section
variable {accepts : List SessionEvent → SessionEvent → Bool} {terms : Terms} {max : UInt64}

theorem overCap_some {tokens : TokenUsage} (hroom : cost tokens < 2 ^ 64)
    {outcome : DispatchOutcome} (h : overCap (some max) tokens.total = some outcome) :
    max.toNat < cost tokens ∧ outcome = .budgetExceeded (.tokenBudget (cost tokens) max.toNat) := by
  rw [overCap] at h
  split at h
  · next hpast =>
    rw [total_toNat hroom] at h
    rw [UInt64.lt_iff_toNat_lt, total_toNat hroom] at hpast
    exact ⟨hpast, (Option.some.inj h).symm⟩
  · cases h

theorem overCap_none {tokens : TokenUsage} (hroom : cost tokens < 2 ^ 64)
    (h : overCap (some max) tokens.total = none) : cost tokens ≤ max.toNat := by
  rw [overCap] at h
  split at h
  · cases h
  · next hwithin =>
    rw [UInt64.lt_iff_toNat_lt, total_toNat hroom] at hwithin
    exact Nat.le_of_not_lt hwithin

/-- What a session that completed its turn ends on is held to the cap. -/
theorem capped_completed (hmax : terms.budget.maxTokens = some max) {ctx : AgentEventCtx}
    (hstart : terms.countsCapMidSession = true → cost ctx.totals.tokens ≤ max.toNat)
    (hroom : cost ctx.totals.tokens < 2 ^ 64) (summary : String) (reports : List Nat) :
    Capped max.toNat terms.countsCapMidSession reports (completed terms ctx summary)
      (cost ctx.totals.tokens) := by
  rw [completed, hmax]
  cases hcounts : terms.countsCapMidSession with
  | true =>
    rw [if_pos rfl]
    exact ⟨fun _ _ => hstart hcounts, fun _ _ h => (by cases h), fun _ => .inl (hstart hcounts)⟩
  | false =>
    rw [if_neg Bool.false_ne_true]
    cases hstop : overCap (some max) ctx.totals.tokens.total with
    | none =>
      have hwithin := overCap_none hroom hstop
      exact ⟨fun _ _ => hwithin, fun _ _ h => (by cases h), fun _ => .inl hwithin⟩
    | some outcome =>
      obtain ⟨hpast, rfl⟩ := overCap_some hroom hstop
      refine ⟨fun _ h => (by cases h), fun used cap h => ?_, fun h => (by cases h)⟩
      cases h
      exact ⟨hpast, rfl⟩

/-- How a read ends, as the outcome of its session. -/
def outcomeOf (read : Option DispatchOutcome × Bool) : DispatchOutcome :=
  if read.2 then .cancelled else read.1.getD .crashed

/-- A read that ends, held to its cap, having spent no more than its wakes reported. -/
theorem capped_readStream (hmax : terms.budget.maxTokens = some max) (wakes : List Wake)
    {ctx : AgentEventCtx}
    (hstart : terms.countsCapMidSession = true → cost ctx.totals.tokens ≤ max.toNat)
    (hroom : cost ctx.totals.tokens + reported wakes < 2 ^ 64)
    {read : Option DispatchOutcome × Bool}
    (hread : (readStream accepts terms ctx wakes).1 = .ok read) :
    Capped max.toNat terms.countsCapMidSession (wakes.map Wake.report) (outcomeOf read)
        (cost (readStream accepts terms ctx wakes).2.totals.tokens) ∧
      cost (readStream accepts terms ctx wakes).2.totals.tokens ≤
        cost ctx.totals.tokens + reported wakes := by
  induction wakes generalizing ctx with
  | nil =>
    obtain rfl := Except.ok.inj hread
    exact ⟨.within hstart (fun _ h => (by cases h)) fun _ _ h => (by cases h), Nat.le_add_right _ _⟩
  | cons wake wakes ih =>
    have hmore : wakes.map Wake.report ⊆ (wake :: wakes).map Wake.report :=
      List.subset_cons_self _ _
    have hsum : reported (wake :: wakes) = wake.report + reported wakes := List.sum_cons
    rw [hsum] at hroom ⊢
    -- a read that goes on from as much as was spent before
    have hgoes : ∀ ctx' : AgentEventCtx, ctx'.totals.tokens = ctx.totals.tokens →
        (readStream accepts terms ctx' wakes).1 = .ok read →
        Capped max.toNat terms.countsCapMidSession ((wake :: wakes).map Wake.report)
            (outcomeOf read) (cost (readStream accepts terms ctx' wakes).2.totals.tokens) ∧
          cost (readStream accepts terms ctx' wakes).2.totals.tokens ≤
            cost ctx.totals.tokens + (wake.report + reported wakes) := by
      intro ctx' htokens hread
      obtain ⟨hcapped, hspent⟩ :=
        ih (fun hcounts => htokens ▸ hstart hcounts) (by rw [htokens]; omega) hread
      rw [htokens] at hspent
      exact ⟨hcapped.mono hmore, by omega⟩
    have hends : ∀ outcome : DispatchOutcome, (∀ summary, outcome ≠ .completed summary) →
        (∀ used cap, outcome ≠ .budgetExceeded (.tokenBudget used cap)) →
        Capped max.toNat terms.countsCapMidSession ((wake :: wakes).map Wake.report) outcome
            (cost ctx.totals.tokens) ∧
          cost ctx.totals.tokens ≤ cost ctx.totals.tokens + (wake.report + reported wakes) :=
      fun outcome hcompleted hstopped =>
        ⟨.within hstart hcompleted hstopped, Nat.le_add_right _ _⟩
    cases wake with
    | cancelled =>
      obtain rfl := Except.ok.inj hread
      exact hends _ (fun _ h => (by cases h)) fun _ _ h => (by cases h)
    | deadline =>
      rw [readStream] at hread ⊢
      cases htimeout : terms.budget.timeout with
      | none =>
        rw [htimeout] at hread
        exact hgoes ctx rfl hread
      | some timeout =>
        rw [htimeout] at hread
        obtain rfl := Except.ok.inj hread
        exact hends _ (fun _ h => (by cases h)) fun _ _ h => (by cases h)
    | reached tool => exact hgoes { ctx with arrivals := ctx.arrivals.reached tool } rfl hread
    | answered tool => exact hgoes { ctx with arrivals := ctx.arrivals.answered tool } rfl hread
    | event event =>
      have happlied := @applied accepts terms ctx event
      rw [readStream] at hread ⊢
      generalize applyAgentEvent accepts terms ctx event = result at happlied hread
      cases happlied with
      | refused htokens hlog => cases hread
      | @recorded ctx' htokens hlog => exact hgoes ctx' htokens hread
      | @reported ctx' htokens hlog =>
        have hevent : Wake.report (.event event) = cost event.spends := rfl
        rw [hevent] at hroom ⊢
        have hcost : cost ctx'.totals.tokens = cost ctx.totals.tokens + cost event.spends := by
          rw [htokens, cost_add (by omega)]
        have hgoes' (hwithin : terms.countsCapMidSession = true →
            cost ctx'.totals.tokens ≤ max.toNat)
            (hread : (readStream accepts terms ctx' wakes).1 = .ok read) :
            Capped max.toNat terms.countsCapMidSession
                ((Wake.event event :: wakes).map Wake.report) (outcomeOf read)
                (cost (readStream accepts terms ctx' wakes).2.totals.tokens) ∧
              cost (readStream accepts terms ctx' wakes).2.totals.tokens ≤
                cost ctx.totals.tokens + (cost event.spends + reported wakes) := by
          obtain ⟨hcapped, hspent⟩ := ih hwithin (by omega) hread
          exact ⟨hcapped.mono hmore, by omega⟩
        revert hread
        by_cases hcounts : terms.countsCapMidSession = true
        · rw [if_pos hcounts, hmax]
          cases hstop : overCap (some max) ctx'.totals.tokens.total with
          | none => exact hgoes' fun _ => overCap_none (by omega) hstop
          | some outcome =>
            intro hread
            obtain rfl := Except.ok.inj hread
            obtain ⟨hpast, rfl⟩ := overCap_some (by omega) hstop
            have hbefore := hstart hcounts
            refine ⟨⟨fun _ h => (by cases h), fun used cap h => ?_, fun _ => .inr ⟨⟨_, _, rfl⟩,
              cost event.spends, List.mem_cons_self .., ?_⟩⟩, ?_⟩
            · cases h
              exact ⟨hpast, rfl⟩
            · show cost ctx'.totals.tokens ≤ _
              omega
            · show cost ctx'.totals.tokens ≤ _
              omega
        · rw [if_neg hcounts]
          exact hgoes' fun h => absurd h hcounts
      | done summary =>
        obtain rfl := Except.ok.inj hread
        exact ⟨capped_completed hmax hstart (by omega) summary _, Nat.le_add_right _ _⟩
      | @failed ctx' error cause htokens hlog =>
        obtain rfl := Except.ok.inj hread
        show Capped _ _ _ (.failed error cause) (cost ctx'.totals.tokens) ∧
          cost ctx'.totals.tokens ≤ _
        rw [htokens]
        exact hends _ (fun _ h => (by cases h)) fun _ _ h => (by cases h)

/-- **What one session comes to is held to its cap.** -/
theorem capped_streamSession (hmax : terms.budget.maxTokens = some max) (canResume : Bool)
    (resume : Option Resume) (stretch : Stretch) (world : World)
    (hroom : reported stretch.wakes < 2 ^ 64) {ended : Dispatched × Bool}
    (h : (streamSession accepts terms canResume resume stretch world).1 = .ok ended) :
    Capped max.toNat terms.countsCapMidSession (stretch.wakes.map Wake.report) ended.1.outcome
        (cost ended.1.tokens) ∧
      cost ended.1.tokens ≤ reported stretch.wakes := by
  have hstreamed := @streamed accepts terms canResume resume stretch world
  generalize streamSession accepts terms canResume resume stretch world = result at hstreamed h
  cases hstreamed with
  | cancelled =>
    obtain rfl := Except.ok.inj h
    exact ⟨.within (fun _ => Nat.zero_le _) (fun _ h => (by cases h)) fun _ _ h => (by cases h),
      Nat.zero_le _⟩
  | failed hplain hlog => cases h
  | @read world' world'' hopen hclose =>
    have hcapped := @capped_readStream accepts terms max hmax stretch.wakes
      { arrivals := world'.arrivals, log := world'.log } (fun _ => Nat.zero_le _)
      (show 0 + reported stretch.wakes < 2 ^ 64 by omega)
    obtain ⟨hreleased, -⟩ := @released accepts terms stretch world'
    dsimp only at h
    rw [h] at hreleased
    generalize readStream accepts terms { arrivals := world'.arrivals, log := world'.log }
      stretch.wakes = read at hreleased hcapped
    obtain ⟨result, ctx⟩ := read
    cases hreleased with
    | ended terminal cancelled =>
      obtain ⟨hheld, hspent⟩ := hcapped rfl
      exact ⟨hheld, hspent.trans_eq (Nat.zero_add _)⟩

/-- What is left of a cap, and that something is. -/
theorem remaining_cap {budget left : Budget} {tokens : TokenUsage} {worked : Nat}
    (hroom : cost tokens < 2 ^ 64) (hmax : budget.maxTokens = some max)
    (h : remaining budget tokens worked = some left) :
    cost tokens < max.toNat ∧
      ∃ rest, left.maxTokens = some rest ∧ rest.toNat = max.toNat - cost tokens := by
  rw [remaining, hmax, leftOf] at h
  split at h
  · next hsome =>
    obtain ⟨timeout, -, rfl⟩ := Option.map_eq_some_iff.mp h
    refine ⟨?_, _, rfl, ?_⟩
    · rw [← total_toNat hroom]
      exact UInt64.lt_iff_toNat_lt.mp hsome
    · rw [UInt64.toNat_sub_of_le _ _ (UInt64.le_of_lt hsome), total_toNat hroom]
  · cases h

/-- **From a session's end on, the dispatch is held to its cap.** -/
theorem capped_goOn (hmax : terms.budget.maxTokens = some max) (canResume : Bool) (worked : Nat)
    (losts : List Lost) {reports : List Nat} {before : Dispatched} {cutOff : Bool} {world : World}
    (hbefore : Capped max.toNat terms.countsCapMidSession reports before.outcome
      (cost before.tokens))
    (hroom : cost before.tokens + reported (losts.flatMap fun lost => lost.next.wakes) < 2 ^ 64)
    {dispatched : Dispatched}
    (h : (goOn accepts terms canResume worked before cutOff losts world).1 = .ok dispatched) :
    Capped max.toNat terms.countsCapMidSession
      (reports ++ (losts.flatMap fun lost => lost.next.wakes).map Wake.report)
      dispatched.outcome (cost dispatched.tokens) := by
  induction losts generalizing reports before cutOff world with
  | nil =>
    have hpicked := @pickedUp accepts terms before cutOff canResume (.never worked) world
    rw [goOn] at h
    rw [List.flatMap_nil, List.map_nil, List.append_nil]
    generalize pickUp accepts terms before cutOff canResume (.never worked) world = result
      at hpicked h
    cases hpicked with
    | goesOn hbudget hlog =>
      obtain rfl := Except.ok.inj h
      exact hbefore
    | ends houtcome hlog =>
      obtain rfl := Except.ok.inj h
      rcases houtcome with rfl | ⟨rfl, hfailed⟩
      · exact hbefore
      · exact hbefore.cancelled hfailed
    | refused hlog => cases h
  | cons lost losts ih =>
    have hpicked := @pickedUp accepts terms before cutOff canResume lost world
    rw [goOn] at h
    have hsum : reported ((lost :: losts).flatMap fun lost => lost.next.wakes) =
        reported lost.next.wakes + reported (losts.flatMap fun lost => lost.next.wakes) := by
      rw [List.flatMap_cons, reported, List.map_append, List.sum_append]
      rfl
    rw [hsum] at hroom
    generalize pickUp accepts terms before cutOff canResume lost world = result at hpicked h
    cases hpicked with
    | ends houtcome hlog =>
      obtain rfl := Except.ok.inj h
      refine Capped.mono ?_ (List.subset_append_left _ _)
      rcases houtcome with rfl | ⟨rfl, hfailed⟩
      · exact hbefore
      · exact hbefore.cancelled hfailed
    | refused hlog => cases h
    | @goesOn session budget world' hbudget hlog =>
      dsimp only at h
      obtain ⟨hleft, rest, hrest, hless⟩ := remaining_cap (by omega) hmax hbudget
      have hnext := @capped_streamSession accepts { terms with budget } _ hrest canResume
        (some ⟨session, true⟩) lost.next world' (by omega)
      cases hstream : streamSession accepts { terms with budget } canResume (some ⟨session, true⟩)
          lost.next world' with
      | mk result world'' =>
        rw [hstream] at h hnext
        cases result with
        | error error => cases h
        | ok next =>
          obtain ⟨hheld, hspent⟩ := hnext rfl
          have hcost : cost (joined before next.1).tokens = cost before.tokens + cost next.1.tokens :=
            cost_add (by omega)
          have hjoined : Capped max.toNat terms.countsCapMidSession
              (reports ++ lost.next.wakes.map Wake.report) (joined before next.1).outcome
              (cost (joined before next.1).tokens) := by
            rw [hcost]
            rw [hless] at hheld
            exact (hheld.after hleft).mono (List.subset_append_right _ _)
          have hmore := ih hjoined (by omega) h
          rw [List.flatMap_cons, List.map_append, ← List.append_assoc]
          exact hmore

/-- **A dispatch is held to the cap it was given**, over every stretch its session was picked back up
    in, as long as what they report fits a `u64`: what completes spent within it; what the cap stopped
    spent past it; and a session counted as it goes spends past it by its last report at most, and
    only where the cap stops it. -/
theorem dispatch_capped (hmax : terms.budget.maxTokens = some max) (canResume : Bool)
    (resume : Option Resume) (first : Stretch) (losts : List Lost) (worked : Nat)
    (log : List SessionEvent)
    (hroom : reported (first.wakes ++ losts.flatMap fun lost => lost.next.wakes) < 2 ^ 64)
    {dispatched : Dispatched}
    (h : (dispatchSession accepts terms canResume resume first losts worked log).1 = .ok dispatched) :
    Capped max.toNat terms.countsCapMidSession
      ((first.wakes ++ losts.flatMap fun lost => lost.next.wakes).map Wake.report)
      dispatched.outcome (cost dispatched.tokens) := by
  rw [reported, List.map_append, List.sum_append] at hroom
  change reported first.wakes + reported (losts.flatMap fun lost => lost.next.wakes) < 2 ^ 64 at hroom
  rw [dispatchSession] at h
  have hfirst := @capped_streamSession accepts terms max hmax canResume resume first { log }
    (by omega)
  rw [List.map_append]
  cases hstream : streamSession accepts terms canResume resume first { log } with
  | mk result world =>
    rw [hstream] at h hfirst
    cases result with
    | error error => cases h
    | ok ended =>
      obtain ⟨hheld, hspent⟩ := hfirst rfl
      exact capped_goOn hmax canResume worked losts hheld (by omega) h

end

/-- A session of a capped dispatch that lost its service after it spent forty tokens, and spent past
    what was left once it was back. -/
def lostOnce : Stretch :=
  ⟨some true, true, true, [.event (.sessionOpened "s" none), .event (.usage (some 30) (some 10) none),
    .event (.failed "connection lost" (.refused .unreachable))], true, true, true, none⟩

def backAgain : Stretch :=
  ⟨some true, true, true, [.event (.sessionOpened "s" none), .event (.usage (some 50) (some 20) none),
    .event (.completed "done")], true, true, true, none⟩

def cappedTerms : Terms := ⟨"claude-code", true, none, none, ⟨some 100, none⟩, true⟩

theorem dispatch_capped_lostOnce :
    Capped 100 true [0, 40, 0, 0, 70, 0] (.budgetExceeded (.tokenBudget 70 60)) 110 :=
  @dispatch_capped (fun _ _ => true) cappedTerms 100 rfl true none lostOnce
    [⟨5, .answered, some true, backAgain⟩] 0 [] (by decide)
    ⟨.budgetExceeded (.tokenBudget 70 60), ⟨80, 30, none⟩, ["s", "s"]⟩ rfl

end Yunta.Process.Dispatch
