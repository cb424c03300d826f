/-
  The stream-json a Claude Code session writes, and the tokens it is charged for.

  1. **Lines** — `ClaudeLine.of` is a line by the `type` it declares; a line that is no JSON, or whose
     type this reader was never taught, is passed over.

  2. **The parser** — `ClaudeParser.parse` turns a line into events.  `messageUsage` reports what an
     assistant message spent, once for each message, and `resultEvents` what the totals of the line
     that ends a session hold beyond that.

  3. **The count** — `firsts` is what the messages spent, each told once, by the first line that
     carries it, and `closing` what the result says.  `claude_tokens`: what a session is charged for,
     however its bytes arrive, is the larger of the two, figure by figure, and nothing where the
     stream does not open.

  The count is a run invariant (`Told`): the parser has told exactly the messages it has met, and
  holds what it told.
-/
import Mathlib.Algebra.BigOperators.Group.Finset.Basic
import Mathlib.Algebra.Group.Prod
import Mathlib.Order.Lattice
import Yunta.Lib.Json
import Yunta.Lib.OrdMap
import Yunta.Process.Stream

set_option linter.unusedVariables false

namespace Yunta.Process.Claude

open TaskCycle (FailureCause)

/-! ## Values -/

/-- A JSON value, an object's entries as they were written.  A number is an integer: no reader here
    sees another. -/
abbrev Value := Json.Value Unit

/-- The value under a key of an object; of a key written twice, the last. -/
def get (value : Value) (key : String) : Option Value :=
  match value with
  | .obj _ entries => (entries.reverse.find? fun entry => entry.1 == key).map (·.2)
  | _ => none

def asStr : Value → Option String
  | .str s => some s
  | _ => none

def asBool : Value → Option Bool
  | .bool b => some b
  | _ => none

def asArray : Value → Option (List Value)
  | .arr items => some items
  | _ => none

def asU64 : Value → Option UInt64
  | .num n => if 0 ≤ n ∧ n < 2 ^ 64 then some (.ofNat n.toNat) else none
  | _ => none

def asI64 : Value → Option Int
  | .num n => if -2 ^ 63 ≤ n ∧ n < 2 ^ 63 then some n else none
  | _ => none

/-! ## Lines -/

/-- A line of the CLI's stream-json, by the `type` it declares. -/
inductive ClaudeLine where
  | system (subtype : Option String) (rest : Value)
  | assistant (value : Value)
  | user (value : Value)
  | rateLimitEvent (value : Value)
  | result (value : Value)
  /-- A line kind this adapter does not read. -/
  | unknown

namespace ClaudeLine

/-- A `system` line: its subtype, where it names one. -/
def systemOf : Value → Option ClaudeLine
  | .obj _ entries =>
    let rest : Value := .obj () (entries.filter fun entry => entry.1 != "subtype")
    match entries.filter fun entry => entry.1 == "subtype" with
    | [] => some (system none rest)
    | [(_, .null)] => some (system none rest)
    | [(_, .str subtype)] => some (system (some subtype) rest)
    | _ => none
  | _ => none

def tagged (kind : String) (rest : Value) : Option ClaudeLine :=
  if kind = "system" then systemOf rest
  else if kind = "assistant" then some (assistant rest)
  else if kind = "user" then some (user rest)
  else if kind = "rate_limit_event" then some (rateLimitEvent rest)
  else if kind = "result" then some (result rest)
  else some unknown

/-- A tagged value: an object with one `type`, or an array that starts with it. -/
def of : Value → Option ClaudeLine
  | .obj _ entries =>
    match entries.filter fun entry => entry.1 == "type" with
    | [(_, .str kind)] => tagged kind (.obj () (entries.filter fun entry => entry.1 != "type"))
    | _ => none
  | .arr (.str kind :: items) => tagged kind (.arr items)
  | _ => none

end ClaudeLine

/-! ## Run tools -/

/-- `RunTool::all`, by name. -/
def runTools : List String :=
  ["yunta_check_artifact", "yunta_post_finding", "yunta_update_finding", "yunta_withdraw_finding",
    "yunta_findings", "yunta_answer_finding", "yunta_submit_tasks", "yunta_submit_spec",
    "yunta_submit_questions", "yunta_task_status", "yunta_task", "yunta_check_task",
    "yunta_check_scope", "yunta_request_scope_expansion", "yunta_declare_deviation",
    "yunta_get_blackboard"]

/-- The run tool a CLI that names tools `mcp__<server>__<tool>` calls. -/
def fromCalled (called : String) : Option String :=
  if "mcp__yunta-run__".toList.isPrefixOf called.toList then
    runTools.find? fun tool => tool.toList == called.toList.drop "mcp__yunta-run__".length
  else none

/-! ## Tokens -/

/-- Tokens in the shape every adapter reports.  A count the CLI did not give stays absent. -/
structure Spent where
  input : Option UInt64 := none
  cached : Option UInt64 := none
  output : Option UInt64 := none
  deriving DecidableEq

namespace Spent

/-- A `usage` object of this CLI's in that shape. -/
def of (usage : Value) : Spent :=
  let count (field : String) : Option UInt64 := (get usage field).bind asU64
  let read := ["input_tokens", "cache_read_input_tokens", "cache_creation_input_tokens"].map count
  { input := if read.any Option.isSome then some (read.filterMap id).sum else none
    cached := count "cache_read_input_tokens"
    output := count "output_tokens" }

/-- Both counts together, field by field. -/
def plus (a b : Spent) : Spent where
  input := TokenUsage.addCached a.input b.input
  cached := TokenUsage.addCached a.cached b.cached
  output := TokenUsage.addCached a.output b.output

/-- What `total` holds beyond `said`, never below nothing. -/
def beyond (total said : Spent) : Spent where
  input := total.input.map (TokenUsage.subSaturating · (said.input.getD 0))
  cached := total.cached.map (TokenUsage.subSaturating · (said.cached.getD 0))
  output := total.output.map (TokenUsage.subSaturating · (said.output.getD 0))

/-- Whether this says a count above nothing. -/
def saysAnything (spent : Spent) : Bool :=
  ([spent.input, spent.cached, spent.output].filterMap id).any (0 < ·)

def asUsage (spent : Spent) : AgentEvent := .usage spent.input spent.output spent.cached

end Spent

/-- What this session's usage has reported so far: every assistant message once, by its id, and the
    totals they added up to. -/
structure Reported where
  messages : Finset String := ∅
  spent : Spent := {}

/-- What the stream's own fields say about the account's limit. -/
structure LimitReading where
  resetsAt : Option Int := none
  assistantLimited : Bool := false

structure ClaudeParser where
  runToolCalls : OrdMap String String := ∅
  reported : Reported := {}
  limit : LimitReading := {}

/-! ## Events -/

/-- A line the protocol does not allow. -/
def malformed (what : String) : AgentEvent := .failed s!"the CLI's {what}" (.refused .final)

/-- What a session id must be: some bytes, no control character among them. -/
def isOpaque (value : String) : Bool :=
  !value.isEmpty && value.toList.all fun c => !(c.toNat < 0x20) && c.toNat != 0x7F

/-- What a model name must be: one printable word. -/
def isToken (value : String) : Bool :=
  !value.isEmpty && value.toList.all fun c => 0x21 ≤ c.toNat && c.toNat ≤ 0x7E

def sessionOpened (value : Value) : AgentEvent :=
  match (get value "session_id").bind asStr with
  | none => malformed "init line has no `session_id`"
  | some sessionId =>
    if !isOpaque sessionId then malformed "init line's `session_id`"
    else
      match (get value "model").bind asStr with
      | none => .sessionOpened sessionId none
      | some model =>
        if !isToken model then malformed "init line's `model`" else .sessionOpened sessionId (some model)

/-- The parts of a message. -/
def content (value : Value) : Option (List Value) :=
  ((get value "message").bind (get · "content")).bind asArray

def kindOf (item : Value) : Option String := (get item "type").bind asStr

def contentEvent (item : Value) : Option AgentEvent := do
  let kind ← kindOf item
  if kind = "text" then
    let text ← (get item "text").bind asStr
    return .note text
  else if kind = "tool_use" then
    let called ← (get item "name").bind asStr
    return .toolUse ((fromCalled called).getD called)
  else none

/-- The run tool a part calls, under the id of the call. -/
def calledBy (item : Value) : Option (String × String) := do
  guard (kindOf item = some "tool_use")
  let id ← (get item "id").bind asStr
  let name ← (get item "name").bind asStr
  let tool ← fromCalled name
  return (id, tool)

def assistantMessage (value : Value) (calls : OrdMap String String) :
    List AgentEvent × OrdMap String String :=
  match content value with
  | none => ([], calls)
  | some items =>
    (items.filterMap contentEvent,
      (items.filterMap calledBy).foldl (fun calls call => calls.insert call.1 call.2) calls)

/-- The run tools a `user` line says were rejected: a call is answered once. -/
def failedParts : OrdMap String String → List Value → List AgentEvent × OrdMap String String
  | calls, [] => ([], calls)
  | calls, part :: parts =>
    match (if kindOf part = some "tool_result" then (get part "tool_use_id").bind asStr else none) with
    | none => failedParts calls parts
    | some id =>
      match calls[id]? with
      | none => failedParts calls parts
      | some tool =>
        let rest := failedParts (calls.erase id) parts
        if (get part "is_error").bind asBool = some true then (.runToolRejected tool :: rest.1, rest.2)
        else rest

def failedRunTools (value : Value) (calls : OrdMap String String) :
    List AgentEvent × OrdMap String String :=
  match content value with
  | none => ([], calls)
  | some parts => failedParts calls parts

/-- An assistant message's usage, the first time one of its lines carries it. -/
def messageUsage (value : Value) (reported : Reported) : Option AgentEvent × Reported :=
  match get value "message" with
  | none => (none, reported)
  | some message =>
    match (get message "id").bind asStr, get message "usage" with
    | some id, some usage =>
      if id ∈ reported.messages then (none, reported)
      else
        let spent := Spent.of usage
        (some spent.asUsage, ⟨insert id reported.messages, reported.spent.plus spent⟩)
    | _, _ => (none, reported)

namespace LimitReading

def assistant (limit : LimitReading) (value : Value) : LimitReading :=
  { limit with assistantLimited := (get value "error").bind asStr = some "rate_limit" }

/-- Whether the result that ends a failed stream is the account's limit.  It takes the assistant's
    flag, so the flag never outlives its message. -/
def endsLimited (limit : LimitReading) (result : Value) : Bool × LimitReading :=
  (limit.assistantLimited || (get result "api_error_status").bind asU64 == some 429,
    { limit with assistantLimited := false })

end LimitReading

section
variable (fromStr : String → Option Value) (fromTimestamp : Int → Option Int)
  (classify : String → FailureCause)

/-- Allowed windows report a reset too; only a rejected window's is the limit's. -/
def LimitReading.rateLimitEvent (limit : LimitReading) (value : Value) : LimitReading :=
  let info := get value "rate_limit_info"
  if (info.bind (get · "status")).bind asStr = some "rejected" then
    { limit with resetsAt := ((info.bind (get · "resetsAt")).bind asI64).bind fromTimestamp }
  else limit

/-- What the totals of a result hold beyond what its messages said. -/
def resultUsage (value : Value) (reported : Reported) : List AgentEvent × Reported :=
  match get value "usage" with
  | none => ([], reported)
  | some usage =>
    let total := Spent.of usage
    let rest := total.beyond reported.spent
    (if rest.saysAnything then [rest.asUsage] else [], { reported with spent := total })

/-- How a result ends the session. -/
def resultEnd (value : Value) (limit : LimitReading) : AgentEvent × LimitReading :=
  match (get value "is_error").bind asBool with
  | none => (malformed "result line has no `is_error`", limit)
  | some true =>
    let message := ((get value "result").bind asStr).getD
      "session ended with an error and no result text"
    let limited := limit.endsLimited value
    (.failed message (if limited.1 then .limit limit.resetsAt else classify message), limited.2)
  | some false => (.completed (((get value "result").bind asStr).getD ""), limit)

def resultEvents (value : Value) (reported : Reported) (limit : LimitReading) :
    List AgentEvent × Reported × LimitReading :=
  let usage := resultUsage value reported
  let ended := resultEnd classify value limit
  (usage.1 ++ [ended.1], usage.2, ended.2)

/-- The events of one line of a known kind. -/
def ClaudeParser.events (parser : ClaudeParser) : ClaudeLine → List AgentEvent × ClaudeParser
  | .system subtype rest =>
    (if subtype = some "init" then [sessionOpened rest] else [], parser)
  | .assistant value =>
    let message := assistantMessage value parser.runToolCalls
    let usage := messageUsage value parser.reported
    (message.1 ++ usage.1.toList, ⟨message.2, usage.2, parser.limit.assistant value⟩)
  | .user value =>
    let failed := failedRunTools value parser.runToolCalls
    (failed.1, { parser with runToolCalls := failed.2 })
  | .rateLimitEvent value =>
    ([], { parser with limit := parser.limit.rateLimitEvent fromTimestamp value })
  | .result value =>
    let ended := resultEvents classify value parser.reported parser.limit
    (ended.1, { parser with reported := ended.2.1, limit := ended.2.2 })
  | .unknown => ([], parser)

/-- What a line is, where it is one of the protocol's. -/
def lineOf (line : String) : Option ClaudeLine := (fromStr line).bind ClaudeLine.of

def ClaudeParser.parse (parser : ClaudeParser) (line : String) : List AgentEvent × ClaudeParser :=
  match lineOf fromStr line with
  | none => ([], parser)
  | some line => parser.events fromTimestamp classify line

end

/-! ## What a stream says -/

/-- The message an assistant line is of, and what the line says that message spent. -/
def usageOf (value : Value) : Option (String × Spent) :=
  match get value "message" with
  | none => none
  | some message =>
    match (get message "id").bind asStr, get message "usage" with
    | some id, some usage => some (id, Spent.of usage)
    | _, _ => none

def carriedBy : Option ClaudeLine → Option (String × Spent)
  | some (.assistant value) => usageOf value
  | _ => none

/-- Whether a line ends the session: a result, or an opening that names none. -/
def ends : Option ClaudeLine → Bool
  | some (.result _) => true
  | some (.system subtype rest) => subtype = some "init" && (sessionOpened rest).terminal
  | _ => false

def Spent.tokens (spent : Spent) : TokenUsage :=
  ⟨spent.input.getD 0, spent.output.getD 0, spent.cached⟩

/-- What the messages that lines carry spent, each as the first line that carries it says. -/
def firstOf (carried : List (String × Spent)) : TokenUsage :=
  ∑ id ∈ (carried.map Prod.fst).toFinset, ((carried.lookup id).map Spent.tokens).getD 0

def firsts (lines : List (Option ClaudeLine)) : TokenUsage :=
  firstOf ((lines.takeWhile fun line => !ends line).filterMap carriedBy)

/-- The totals a result carries. -/
def closingOf : Option ClaudeLine → TokenUsage
  | some (.result value) => ((get value "usage").map fun usage => (Spent.of usage).tokens).getD 0
  | _ => 0

/-- The totals of the line that ends the session. -/
def closing (lines : List (Option ClaudeLine)) : TokenUsage :=
  ((lines.dropWhile fun line => !ends line).head?.map closingOf).getD 0

/-- The figures of a usage: what it read, what it wrote, and the cached part of what it read. -/
def figures : TokenUsage →+ UInt64 × UInt64 × UInt64 where
  toFun usage := (usage.input, usage.output, usage.cached.getD 0)
  map_zero' := rfl
  map_add' a b := Prod.ext rfl (Prod.ext rfl (TokenUsage.addCached_getD a.cached b.cached))

/-! ## One message, told once -/

theorem Spent.tokens_plus (a b : Spent) : (a.plus b).tokens = a.tokens + b.tokens :=
  TokenUsage.ext' (TokenUsage.addCached_getD a.input b.input)
    (TokenUsage.addCached_getD a.output b.output) rfl

theorem spends_asUsage (spent : Spent) : spent.asUsage.spends = spent.tokens := rfl

theorem ids_snoc (carried : List (String × Spent)) (id : String) (spent : Spent) :
    ((carried ++ [(id, spent)]).map Prod.fst).toFinset = insert id (carried.map Prod.fst).toFinset := by
  ext other
  simp

/-- What a message carried again spent is what its first line said. -/
theorem firstOf_snoc (carried : List (String × Spent)) (id : String) (spent : Spent) :
    firstOf (carried ++ [(id, spent)]) =
      firstOf carried + if id ∈ (carried.map Prod.fst).toFinset then 0 else spent.tokens := by
  have hold : ∀ other ∈ (carried.map Prod.fst).toFinset,
      (carried ++ [(id, spent)]).lookup other = carried.lookup other := by
    intro other hother
    rw [List.lookup_append]
    have hsome : (carried.lookup other).isSome := by
      rw [List.lookup_isSome_iff]
      obtain ⟨entry, hentry, hfst⟩ := List.mem_map.mp (List.mem_toFinset.mp hother)
      exact ⟨entry, hentry, by rw [hfst, beq_self_eq_true]⟩
    obtain ⟨found, hfound⟩ := Option.isSome_iff_exists.mp hsome
    rw [hfound]
    rfl
  rw [firstOf, ids_snoc]
  by_cases hmem : id ∈ (carried.map Prod.fst).toFinset
  · rw [if_pos hmem, add_zero, Finset.insert_eq_of_mem hmem]
    exact Finset.sum_congr rfl fun other hother => by rw [hold other hother]
  · have hnew : (carried ++ [(id, spent)]).lookup id = some spent := by
      rw [List.lookup_append]
      have hnone : carried.lookup id = none := by
        rw [List.lookup_eq_none_iff]
        intro entry hentry
        have : entry.1 ≠ id := fun heq =>
          hmem (List.mem_toFinset.mpr (List.mem_map.mpr ⟨entry, hentry, heq⟩))
        simpa using this.symm
      rw [hnone]
      simp
    rw [if_neg hmem, Finset.sum_insert hmem, hnew, add_comm]
    refine congrArg (· + _) ?_
    exact Finset.sum_congr rfl fun other hother => by rw [hold other hother]

/-- The parser has told exactly the messages met so far, and holds what it told. -/
structure Told (parser : ClaudeParser) (carried : List (String × Spent)) : Prop where
  messages : parser.reported.messages = (carried.map Prod.fst).toFinset
  spent : parser.reported.spent.tokens = firstOf carried

theorem told_new : Told {} [] := ⟨rfl, rfl⟩

theorem messageUsage_eq (value : Value) (reported : Reported) :
    messageUsage value reported =
      match usageOf value with
      | none => (none, reported)
      | some (id, spent) =>
        if id ∈ reported.messages then (none, reported)
        else (some spent.asUsage, ⟨insert id reported.messages, reported.spent.plus spent⟩) := by
  rw [messageUsage, usageOf]
  cases get value "message" with
  | none => rfl
  | some message =>
    dsimp only
    cases (get message "id").bind asStr with
    | none => rfl
    | some id =>
      cases get message "usage" with
      | none => rfl
      | some usage => rfl

/-- A line's usage is told where its message is new, and the parser has told the messages met with
    it. -/
theorem Told.messageUsage {parser : ClaudeParser} {carried : List (String × Spent)}
    (htold : Told parser carried) (value : Value) (calls : OrdMap String String)
    (limit : LimitReading) :
    Told ⟨calls, (messageUsage value parser.reported).2, limit⟩ (carried ++ (usageOf value).toList) ∧
      firstOf carried + spentBy (messageUsage value parser.reported).1.toList =
        firstOf (carried ++ (usageOf value).toList) := by
  rw [messageUsage_eq]
  cases hcarried : usageOf value with
  | none =>
    rw [Option.toList_none, List.append_nil]
    exact ⟨⟨htold.messages, htold.spent⟩, add_zero _⟩
  | some entry =>
    obtain ⟨id, spent⟩ := entry
    dsimp only
    rw [Option.toList_some, firstOf_snoc, htold.messages]
    by_cases hmem : id ∈ (carried.map Prod.fst).toFinset
    · rw [if_pos hmem, if_pos hmem]
      refine ⟨⟨?_, ?_⟩, rfl⟩
      · rw [ids_snoc, Finset.insert_eq_of_mem hmem]
        exact htold.messages
      · rw [firstOf_snoc, if_pos hmem, add_zero]
        exact htold.spent
    · rw [if_neg hmem, if_neg hmem]
      refine ⟨⟨(ids_snoc ..).symm, ?_⟩, ?_⟩
      · rw [firstOf_snoc, if_neg hmem, ← htold.spent]
        exact Spent.tokens_plus parser.reported.spent spent
      · show firstOf carried + (spent.asUsage.spends + 0) = _
        rw [add_zero, spends_asUsage]

/-! ## A line -/

/-- Events that spend nothing and end nothing. -/
def Quiet (events : List AgentEvent) : Prop :=
  ∀ event ∈ events, event.spends = 0 ∧ event.terminal = false

theorem Quiet.spent {events : List AgentEvent} (hquiet : Quiet events) : spentBy events = 0 :=
  List.sum_eq_zero fun spend hspend => by
    obtain ⟨event, hevent, rfl⟩ := List.mem_map.mp hspend
    exact (hquiet event hevent).1

theorem Quiet.goesOn {events : List AgentEvent} (hquiet : Quiet events) :
    events.any AgentEvent.terminal = false :=
  List.any_eq_false.mpr fun event hevent => by rw [(hquiet event hevent).2]; exact Bool.false_ne_true

theorem quiet_message (value : Value) (calls : OrdMap String String) :
    Quiet (assistantMessage value calls).1 := by
  intro event hevent
  rw [assistantMessage] at hevent
  cases hcontent : content value with
  | none => rw [hcontent] at hevent; cases hevent
  | some items =>
    rw [hcontent] at hevent
    obtain ⟨item, -, hitem⟩ := List.mem_filterMap.mp hevent
    rw [contentEvent] at hitem
    obtain ⟨kind, -, hitem⟩ := Option.bind_eq_some_iff.mp hitem
    split at hitem
    · obtain ⟨text, -, htext⟩ := Option.bind_eq_some_iff.mp hitem
      cases htext
      exact ⟨rfl, rfl⟩
    split at hitem
    · obtain ⟨called, -, hcalled⟩ := Option.bind_eq_some_iff.mp hitem
      cases hcalled
      exact ⟨rfl, rfl⟩
    · cases hitem

theorem quiet_failedParts (calls : OrdMap String String) (parts : List Value) :
    Quiet (failedParts calls parts).1 := by
  induction parts generalizing calls with
  | nil =>
    intro event hevent
    cases hevent
  | cons part parts ih =>
    rw [failedParts]
    split
    · exact ih calls
    · next id _ =>
      cases calls[id]? with
      | none => exact ih calls
      | some tool =>
        dsimp only
        split
        · intro event hevent
          rcases List.mem_cons.mp hevent with rfl | hevent
          · exact ⟨rfl, rfl⟩
          · exact ih _ event hevent
        · exact ih _

theorem quiet_user (value : Value) (calls : OrdMap String String) :
    Quiet (failedRunTools value calls).1 := by
  rw [failedRunTools]
  cases content value with
  | none =>
    intro event hevent
    cases hevent
  | some parts => exact quiet_failedParts calls parts

theorem spends_sessionOpened (value : Value) : (sessionOpened value).spends = 0 := by
  rw [sessionOpened]
  repeat' split
  all_goals rfl

theorem quiet_system {subtype : Option String} {rest : Value}
    (hends : ends (some (.system subtype rest)) = false) :
    Quiet (if subtype = some "init" then [sessionOpened rest] else []) := by
  intro event hevent
  split at hevent
  · next hinit =>
    rw [List.mem_singleton.mp hevent]
    refine ⟨spends_sessionOpened rest, ?_⟩
    simpa [ends, hinit] using hends
  · cases hevent

theorem messageUsage_goesOn (value : Value) (reported : Reported) :
    (messageUsage value reported).1.toList.any AgentEvent.terminal = false := by
  rw [messageUsage_eq]
  cases usageOf value with
  | none => rfl
  | some entry =>
    dsimp only
    split <;> rfl

section
variable (fromStr : String → Option Value) (fromTimestamp : Int → Option Int)
  (classify : String → FailureCause)

/-- What a line that does not end the session does: its events go on, and add what its message spent
    where the line is the first to say so. -/
theorem Told.line {parser : ClaudeParser} {carried : List (String × Spent)}
    (htold : Told parser carried) {line : String} (hends : ends (lineOf fromStr line) = false) :
    Told (parser.parse fromStr fromTimestamp classify line).2
        (carried ++ (carriedBy (lineOf fromStr line)).toList) ∧
      firstOf carried + spentBy (parser.parse fromStr fromTimestamp classify line).1 =
        firstOf (carried ++ (carriedBy (lineOf fromStr line)).toList) ∧
      (parser.parse fromStr fromTimestamp classify line).1.any AgentEvent.terminal = false := by
  have hsame : ∀ calls limit, Told ⟨calls, parser.reported, limit⟩ (carried ++ []) := by
    intro calls limit
    rw [List.append_nil]
    exact ⟨htold.messages, htold.spent⟩
  have hnothing : ∀ {events : List AgentEvent}, Quiet events →
      firstOf carried + spentBy events = firstOf (carried ++ []) := by
    intro events hquiet
    rw [hquiet.spent, add_zero, List.append_nil]
  have hempty : Quiet [] := fun event hevent => (by cases hevent)
  rw [ClaudeParser.parse]
  cases hline : lineOf fromStr line with
  | none => exact ⟨hsame _ _, hnothing hempty, rfl⟩
  | some line =>
    rw [hline] at hends
    cases line with
    | system subtype rest =>
      have hquiet := quiet_system hends
      exact ⟨hsame _ _, hnothing hquiet, hquiet.goesOn⟩
    | assistant value =>
      obtain ⟨htold', hspent⟩ := htold.messageUsage value
        (assistantMessage value parser.runToolCalls).2 (parser.limit.assistant value)
      refine ⟨htold', ?_, ?_⟩
      · show firstOf carried + spentBy ((assistantMessage value parser.runToolCalls).1 ++
          (Claude.messageUsage value parser.reported).1.toList) = firstOf (carried ++ (usageOf value).toList)
        rw [spentBy_append, (quiet_message value _).spent, zero_add]
        exact hspent
      · show ((assistantMessage value parser.runToolCalls).1 ++
          (Claude.messageUsage value parser.reported).1.toList).any AgentEvent.terminal = false
        rw [List.any_append, (quiet_message value _).goesOn, messageUsage_goesOn]
        rfl
    | user value =>
      exact ⟨hsame _ _, hnothing (quiet_user value _), (quiet_user value _).goesOn⟩
    | rateLimitEvent value => exact ⟨hsame _ _, hnothing hempty, rfl⟩
    | result value => cases hends
    | unknown => exact ⟨hsame _ _, hnothing hempty, rfl⟩

/-! ## The line that ends a session -/

theorem max_zero (c : UInt64) : max c 0 = c := by
  show (if c ≤ 0 then 0 else c) = c
  split
  · next hle => exact (UInt64.le_zero_iff.mp hle).symm
  · rfl

/-- What is missing up to a total, added, is the total where it is the larger: no such sum wraps. -/
theorem add_subSaturating (said total : UInt64) :
    said + TokenUsage.subSaturating total said = max said total := by
  show said + (if said ≤ total then total - said else 0) = if said ≤ total then total else said
  split
  · rw [add_comm, UInt64.sub_add_cancel]
  · exact UInt64.add_zero said

/-- Nothing more brings a count up to nothing. -/
theorem add_zero_sup (count : UInt64 × UInt64 × UInt64) : count + 0 = count ⊔ 0 := by
  have hfield (c : UInt64) : c + 0 = max c 0 :=
    (UInt64.add_zero c).trans (max_zero c).symm
  exact Prod.ext (hfield _) (Prod.ext (hfield _) (hfield _))

theorem figures_beyond (total said : Spent) :
    figures said.tokens + figures (total.beyond said).tokens =
      figures said.tokens ⊔ figures total.tokens := by
  have hfield : ∀ (said total : Option UInt64),
      said.getD 0 + (total.map (TokenUsage.subSaturating · (said.getD 0))).getD 0 =
        max (said.getD 0) (total.getD 0) := by
    intro said total
    cases total with
    | none => exact (UInt64.add_zero _).trans (max_zero _).symm
    | some total =>
      show said.getD 0 + TokenUsage.subSaturating total (said.getD 0) = max (said.getD 0) total
      exact add_subSaturating (said.getD 0) total
  exact Prod.ext (hfield said.input total.input)
    (Prod.ext (hfield said.output total.output) (hfield said.cached total.cached))

/-- What says no count above nothing adds none. -/
theorem figures_silent {spent : Spent} (hsilent : spent.saysAnything = false) :
    figures spent.tokens = 0 := by
  have hfield : ∀ count ∈ [spent.input, spent.cached, spent.output], count.getD 0 = 0 := by
    intro count hcount
    cases hgiven : count with
    | none => rfl
    | some given =>
      have hmem : given ∈ [spent.input, spent.cached, spent.output].filterMap id :=
        List.mem_filterMap.mpr ⟨count, hcount, hgiven⟩
      have := List.any_eq_false.mp hsilent given hmem
      show given = 0
      simpa using this
  exact Prod.ext (hfield spent.input (by simp))
    (Prod.ext (hfield spent.output (by simp)) (hfield spent.cached (by simp)))

/-- What a result's totals hold beyond what was told brings the count up to them. -/
theorem spent_resultUsage (value : Value) (reported : Reported) :
    figures reported.spent.tokens + figures (spentBy (resultUsage value reported).1) =
      figures reported.spent.tokens ⊔ figures (closingOf (some (.result value))) := by
  rw [resultUsage, closingOf]
  cases get value "usage" with
  | none => exact add_zero_sup _
  | some usage =>
    show figures reported.spent.tokens + figures (spentBy
        (if ((Spent.of usage).beyond reported.spent).saysAnything then
          [((Spent.of usage).beyond reported.spent).asUsage] else [])) =
      figures reported.spent.tokens ⊔ figures (Spent.of usage).tokens
    rw [← figures_beyond]
    cases hsays : ((Spent.of usage).beyond reported.spent).saysAnything with
    | false =>
      rw [figures_silent hsays]
      rfl
    | true =>
      rw [if_pos rfl]
      show _ + figures (((Spent.of usage).beyond reported.spent).asUsage.spends + 0) = _
      rw [add_zero, spends_asUsage]

theorem spends_of_terminal {event : AgentEvent} (h : event.terminal = true) : event.spends = 0 := by
  cases event with
  | completed summary => rfl
  | failed error cause => rfl
  | _ => cases h

theorem terminal_resultEnd (value : Value) (limit : LimitReading) :
    (resultEnd classify value limit).1.terminal = true := by
  rw [resultEnd]
  split <;> rfl

theorem goesOn_resultUsage (value : Value) (reported : Reported) :
    (resultUsage value reported).1.any AgentEvent.terminal = false := by
  rw [resultUsage]
  cases get value "usage" with
  | none => rfl
  | some usage =>
    dsimp only
    split <;> rfl

/-- What a line that ends the session does: its events end it, and bring the count up to its
    totals. -/
theorem Told.last {parser : ClaudeParser} {carried : List (String × Spent)}
    (htold : Told parser carried) {line : String} (hends : ends (lineOf fromStr line) = true) :
    (parser.parse fromStr fromTimestamp classify line).1.any AgentEvent.terminal = true ∧
      figures (firstOf carried) +
          figures (spentBy (throughTerminal (parser.parse fromStr fromTimestamp classify line).1)) =
        figures (firstOf carried) ⊔ figures (closingOf (lineOf fromStr line)) := by
  rw [ClaudeParser.parse]
  cases hline : lineOf fromStr line with
  | none => rw [hline] at hends; cases hends
  | some line =>
    rw [hline] at hends
    cases line with
    | system subtype rest =>
      obtain ⟨hinit, hterminal⟩ := Bool.and_eq_true_iff.mp hends
      have hevents : (parser.events fromTimestamp classify (.system subtype rest)).1 =
          [sessionOpened rest] := if_pos (of_decide_eq_true hinit)
      show (parser.events fromTimestamp classify (.system subtype rest)).1.any _ = true ∧ _
      rw [hevents]
      refine ⟨by rw [List.any_cons, hterminal]; rfl, ?_⟩
      rw [throughTerminal, if_pos hterminal]
      show _ + figures ((sessionOpened rest).spends + 0) = _
      rw [spends_sessionOpened]
      exact add_zero_sup _
    | result value =>
      have hlast := terminal_resultEnd classify value parser.limit
      show ((resultUsage value parser.reported).1 ++
          [(resultEnd classify value parser.limit).1]).any AgentEvent.terminal = true ∧
        _ + figures (spentBy (throughTerminal ((resultUsage value parser.reported).1 ++
          [(resultEnd classify value parser.limit).1]))) = _
      rw [throughTerminal_append, goesOn_resultUsage, if_neg Bool.false_ne_true, throughTerminal,
        if_pos hlast, spentBy_append, List.any_append, goesOn_resultUsage]
      refine ⟨by rw [List.any_cons, hlast]; rfl, ?_⟩
      have hend : spentBy [(resultEnd classify value parser.limit).1] = 0 := by
        show (resultEnd classify value parser.limit).1.spends + 0 = 0
        rw [spends_of_terminal hlast, add_zero]
      rw [hend, add_zero, ← htold.spent]
      exact spent_resultUsage value parser.reported
    | _ => cases hends

/-! ## The count -/

/-- From any parser on, the count of what is left of a stream is the larger of what its messages
    spent and what its closing line says. -/
theorem Told.counted {parser : ClaudeParser} {carried : List (String × Spent)}
    (htold : Told parser carried) (lines : List String) :
    figures (firstOf carried) + figures (spentBy (throughTerminal
        (parsedFrom (ClaudeParser.parse fromStr fromTimestamp classify) parser lines))) =
      figures (firstOf (carried ++ ((lines.map (lineOf fromStr)).takeWhile
          fun line => !ends line).filterMap carriedBy)) ⊔
        figures (closing (lines.map (lineOf fromStr))) := by
  induction lines generalizing parser carried with
  | nil =>
    rw [List.map_nil, List.takeWhile_nil, List.filterMap_nil, List.append_nil]
    exact add_zero_sup _
  | cons line lines ih =>
    rw [parsedFrom, throughTerminal_append, List.map_cons]
    cases hends : ends (lineOf fromStr line) with
    | true =>
      obtain ⟨hany, hcount⟩ := htold.last fromStr fromTimestamp classify hends
      have hclosing : closing (lineOf fromStr line :: lines.map (lineOf fromStr)) =
          closingOf (lineOf fromStr line) := by
        rw [closing, List.dropWhile_cons_of_neg (by rw [hends]; exact Bool.false_ne_true)]
        rfl
      rw [hany, if_pos rfl, hcount, hclosing,
        List.takeWhile_cons_of_neg (by rw [hends]; exact Bool.false_ne_true),
        List.filterMap_nil, List.append_nil]
    | false =>
      obtain ⟨htold', hspent, hany⟩ := htold.line fromStr fromTimestamp classify hends
      have hclosing : closing (lineOf fromStr line :: lines.map (lineOf fromStr)) =
          closing (lines.map (lineOf fromStr)) := by
        rw [closing, List.dropWhile_cons_of_pos (by rw [hends]; rfl)]
        rfl
      have hmore : (lineOf fromStr line :: (lines.map (lineOf fromStr)).takeWhile
            fun line => !ends line).filterMap carriedBy =
          (carriedBy (lineOf fromStr line)).toList ++
            ((lines.map (lineOf fromStr)).takeWhile fun line => !ends line).filterMap carriedBy := by
        rw [List.filterMap_cons]
        cases carriedBy (lineOf fromStr line) <;> rfl
      rw [hany, if_neg Bool.false_ne_true, spentBy_append, map_add, ← add_assoc, ← map_add, hspent,
        hclosing, List.takeWhile_cons_of_pos (by rw [hends]; rfl), hmore, ← List.append_assoc]
      exact ih htold'

/-- **What a Claude session is charged for**, however its bytes arrive: where the stream opens, the
    larger, figure by figure, of what its messages spent — each told once, up to the line that ends
    it — and what that line says; and nothing where it does not open. -/
theorem claude_tokens (stdout : List PipeRead) :
    let parse := ClaudeParser.parse fromStr fromTimestamp classify
    let lines := linesHeard (heard stdout).1 (heard stdout).2
    figures (spentBy (sentOf parse "claude-code" {} stdout)) =
      if (parsedFrom parse {} lines).head?.all AgentEvent.opens then
        figures (firsts (lines.map (lineOf fromStr))) ⊔ figures (closing (lines.map (lineOf fromStr)))
      else 0 := by
  intro parse lines
  rw [(session_protocol parse "claude-code" {} stdout).2]
  show figures (spentBy (protocol "claude-code" (parsedFrom parse {} lines))) = _
  have hcounted := Told.counted fromStr fromTimestamp classify told_new lines
  rw [show firstOf [] = 0 from rfl, map_zero, zero_add, List.nil_append] at hcounted
  cases hparsed : parsedFrom parse {} lines with
  | nil =>
    have hsame : throughTerminal (parsedFrom parse {} lines) = [] := by
      rw [hparsed]
      rfl
    rw [hsame] at hcounted
    exact hcounted
  | cons event events =>
    cases hopens : event.opens with
    | true =>
      rw [List.head?_cons, Option.all_some, hopens, if_pos rfl]
      rw [protocol, hopens, if_pos rfl, ← hparsed]
      exact hcounted
    | false =>
      rw [List.head?_cons, Option.all_some, hopens, if_neg Bool.false_ne_true]
      rw [protocol, hopens, if_neg Bool.false_ne_true]
      rfl

end

end Yunta.Process.Claude
