/-
  A workflow node and the chain of child runs it drives, over any crashes.

  1. **The machine** — a process enters the node, links a child ahead of its birth, drives it to its
     close, and records that close on the link; a member that closed promoted hands over to a
     successor, born in the next mode and linked in its turn.  Every append, to the parent's log or
     to a member's own, is an act of its own, and a crash may fall between any two.

  2. **What survives** — `Survives`: the node ends as its last member does, each link closes as its
     member's own log closed, each member works in the mode its predecessor handed over, and the
     parent's spend counts each member once.

  3. **Main result** — `survives`: it does in every run no crash of which falls between a member's
     close as promoted and the link of its successor, or between the last member's link and the
     node's own close.  A crash there takes the member for one that closed done, leaves its successor
     to nobody, or starts a settled chain over (`not_survives`).
-/
import Yunta.Lib.Machine
import Yunta.Lib.OrdMap
import Yunta.Run.ChildLinks
import Mathlib.Data.Fintype.EquivFin

set_option linter.unusedVariables false

namespace Yunta.ChildChain

open Machine

/-! ## The machine -/

/-- A workflow node, and how the members of its chain end: promoted this many times, then done or
    failed. -/
structure Composed where
  node : NodeId
  workflow : ContentHash
  promotions : Nat
  succeeds : Bool

/-- How a member closes its own log, by the mode it was born in. -/
def Composed.ends (c : Composed) (mode : Nat) : TerminalState :=
  if mode < c.promotions then .promoted else if c.succeeds then .done else .failed

/-- What a member's own log says: the mode it was born in, counted from the workflow's first, and
    how it closed, with what it spent. -/
structure Member where
  mode : Nat
  closed : Option (TerminalState × TokenUsage) := none
  deriving DecidableEq

/-- Where an execution of a run stopped, as the caller that drove it hears it. -/
inductive RunTerminal where
  | finished | promoted | failed
  deriving DecidableEq

/-- What an execution that closed its run answers. -/
def RunTerminal.of : TerminalState → RunTerminal
  | .promoted => .promoted
  | .failed => .failed
  | .done | .cancelled => .finished

/-- Drives a member to its close: what the execution answers, and the member it leaves.  A run whose
    log already ends answers finished, however it ended. -/
def runMember (c : Composed) (spent : TokenUsage) (member : Member) : RunTerminal × Member :=
  match member.closed with
  | some _ => (.finished, member)
  | none =>
    (.of (c.ends member.mode), { member with closed := some (c.ends member.mode, spent) })

/-- Whether a child's own log closed failed. -/
def closedFailed (member : Member) : Bool := member.closed.any fun closed => closed.1 = .failed

/-- What a member spent, by its own log. -/
def Member.spent (member : Member) : TokenUsage := (member.closed.map (·.2)).getD 0

/-- Where the process driving the node stands between two appends. -/
inductive Driving where
  /-- About to link a fresh child. -/
  | linking
  /-- The link is on the parent's log, and the child has none yet. -/
  | bearing (run : RunId)
  | driving (run : RunId)
  | reported (run : RunId) (report : RunTerminal)
  /-- The promoted member's link is closed, and its successor is to be born in this mode. -/
  | handing (mode : Nat)
  /-- The successor is born, and the parent's log does not name it. -/
  | succeeding (run : RunId)
  | closing (succeeded : Bool)
  deriving DecidableEq

/-- How a report ends the member's link, and where the process goes from there. -/
def answered (member : Member) : RunTerminal → TerminalState × Driving
  | .finished => if closedFailed member then (.failed, .closing false) else (.done, .closing true)
  | .promoted => (.promoted, .handing (member.mode + 1))
  | .failed => (.failed, .closing false)

/-- The parent's child events, the members' own logs, how the node closed, and the process driving
    it, if one does. -/
structure Life where
  log : List ChildEntry := []
  logs : OrdMap RunId Member := ∅
  node : Option Bool := none
  process : Option Driving := none

namespace Life

/-- The node's children, as the parent's log knows them. -/
def children (c : Composed) (s : Life) : List Linked := (childrenOf s.log).under c.node

/-- An id nobody minted before. -/
def fresh (s : Life) (run : RunId) : Bool :=
  !(childrenOf s.log).ids.contains run && (s.logs[run]?).isNone

/-- Appends a child event under the node to the parent's log. -/
def record (c : Composed) (s : Life) (event : ChildEvent) (next : Driving) : Life :=
  { s with log := s.log ++ [(some c.node, event)], process := some next }

/-- Appends to a member's own log. -/
def write (s : Life) (run : RunId) (member : Member) (next : Driving) : Life :=
  { s with logs := s.logs.insert run member, process := some next }

end Life

inductive Act where
  | enter
  | linkChild (run : RunId)
  | createRun
  | runMember (spent : TokenUsage)
  | linkFinished
  | createSuccessor (run : RunId)
  | linkSuccessor
  | closeNode
  /-- A child event of another node of the parent. -/
  | beside (entry : ChildEntry)
  /-- The process dies, or stops where it is: a child that pauses keeps the node open. -/
  | crash

/-- The link of a child the node starts. -/
def created (c : Composed) (run : RunId) : ChildEvent := .created ⟨run, c.workflow⟩

/-- Whether an entry of another node is one the log can take: it links an id nobody minted, or
    closes a link of its own. -/
def takesBeside (c : Composed) (s : Life) : ChildEntry → Bool
  | (under, .created p) => under ≠ some c.node && s.fresh p.childRunId
  | (under, .finished p) =>
    under ≠ some c.node && (childrenOf s.log).ids.contains p.childRunId &&
      !((s.children c).map (·.1)).contains p.childRunId
  | (under, .loopIteration p) => true

def step (c : Composed) (s : Life) : Act → Option Life
  | .enter =>
    match s.process, s.node with
    | none, none =>
      match ((childrenOf s.log).openUnder c.node).map (·.runId) with
      | some run =>
        -- a link whose child has no log was cut before its birth, and a fresh one supersedes it
        if (s.logs[run]?).isSome then some { s with process := some (.driving run) }
        else some { s with process := some .linking }
      | none => some { s with process := some .linking }
    | _, _ => none
  | .linkChild run =>
    match s.process with
    | some .linking => if s.fresh run then some (s.record c (created c run) (.bearing run)) else none
    | _ => none
  | .createRun =>
    match s.process with
    | some (.bearing run) => some (s.write run ⟨0, none⟩ (.driving run))
    | _ => none
  | .runMember spent =>
    match s.process with
    | some (.driving run) =>
      (s.logs[run]?).map fun member =>
        s.write run (runMember c spent member).2 (.reported run (runMember c spent member).1)
    | _ => none
  | .linkFinished =>
    match s.process with
    | some (.reported run report) =>
      (s.logs[run]?).map fun member =>
        s.record c
          (.finished ⟨run, c.workflow, (answered member report).1, member.spent⟩)
          (answered member report).2
    | _ => none
  | .createSuccessor run =>
    match s.process with
    | some (.handing mode) =>
      if s.fresh run then some (s.write run ⟨mode, none⟩ (.succeeding run)) else none
    | _ => none
  | .linkSuccessor =>
    match s.process with
    | some (.succeeding run) => some (s.record c (created c run) (.driving run))
    | _ => none
  | .closeNode =>
    match s.process with
    | some (.closing succeeded) => some { s with node := some succeeded, process := none }
    | _ => none
  | .beside entry => if takesBeside c s entry then some { s with log := s.log ++ [entry] } else none
  | .crash => some { s with process := none }

/-! ## What survives -/

/-- Whether the process stands between a member's close as promoted and its successor's link, or
    between the link of the last member and the node's close. -/
def handsOver : Option Driving → Bool
  | some (.reported _ .promoted) | some (.handing _) | some (.succeeding _) | some (.closing _) =>
    true
  | _ => false

/-- No crash falls between a member's close as promoted and its successor's link, or between the
    link of the last member and the node's close. -/
def HandedOver (s : Life) : Act → Prop
  | .crash => handsOver s.process = false
  | _ => True

instance (s : Life) : (act : Act) → Decidable (HandedOver s act)
  | .crash => inferInstanceAs (Decidable (handsOver s.process = false))
  | .enter | .linkChild _ | .createRun | .runMember _ | .linkFinished | .createSuccessor _
  | .linkSuccessor | .closeNode | .beside _ => .isTrue trivial

/-- The process goes on: no crash, and nothing from another node. -/
def Onward (s : Life) : Act → Prop
  | .crash | .beside _ => False
  | _ => True

/-- The links of a chain that goes on, oldest first, and the mode its next member is born in: each
    member closed promoted, by its link and by its own log, in the mode the one before handed it. -/
inductive Line (logs : OrdMap RunId Member) : List Linked → Nat → Prop
  | nil : Line logs [] 0
  /-- A link cut before its child's birth. -/
  | superseded {children : List Linked} {mode : Nat} (run : RunId) :
      Line logs children mode → logs[run]? = none → Line logs (children ++ [(run, none)]) mode
  | promoted {children : List Linked} {mode : Nat} (run : RunId) (tokens : TokenUsage) :
      Line logs children mode → logs[run]? = some ⟨mode, some (.promoted, tokens)⟩ →
      Line logs (children ++ [(run, some .promoted)]) (mode + 1)

/-- The node's last link is open, and its child was born in the mode its predecessor handed over. -/
def OpenAt (logs : OrdMap RunId Member) (children : List Linked) (run : RunId) (member : Member) :
    Prop :=
  ∃ settled, children = settled ++ [(run, none)] ∧ Line logs settled member.mode ∧
    logs[run]? = some member

/-- A chain that is over: its last member closed otherwise than promoted, in the mode handed to it,
    and nothing was born after it. -/
def Settled (logs : OrdMap RunId Member) (children : List Linked) : Prop :=
  ∃ before mode run terminal tokens, children = before ++ [(run, some terminal)] ∧
    Line logs before mode ∧ logs[run]? = some ⟨mode, some (terminal, tokens)⟩ ∧
    terminal ≠ .promoted

/-- What a member spent, by its own log. -/
def spentBy (logs : OrdMap RunId Member) (child : Linked) : TokenUsage :=
  ((logs[child.1]?).map Member.spent).getD 0

/-- No crash has cost the chain anything: what the node has come to is what the uncut chain comes to,
    and it can still be brought to its end. -/
structure Survives (c : Composed) (s : Life) : Prop where
  /-- The node ends as the uncut chain does, over a chain that is over. -/
  ends : ∀ succeeded, s.node = some succeeded →
    succeeded = c.succeeds ∧ Settled s.logs (s.children c)
  /-- Resumed and not cut again, it gets there. -/
  resumes : ∃ s', Reached (step c) Onward s s' ∧ s'.node = some c.succeeds
  /-- A link is finished as its member's own log closed, with what that member spent. -/
  faithful : ∀ p ∈ closings c.node s.log, ∃ mode,
    s.logs[p.childRunId]? = some ⟨mode, some (p.terminalState, p.tokens)⟩
  /-- Each member works in the mode its predecessor handed over, only the last may be open, and
      nothing is born after one that closed otherwise than promoted. -/
  driven : (∃ mode, Line s.logs (s.children c) mode) ∨
    (∃ run member, OpenAt s.logs (s.children c) run member) ∨ Settled s.logs (s.children c)
  /-- No link is finished twice. -/
  once : ((closings c.node s.log).map (·.childRunId)).Nodup
  /-- The parent's spend is what other nodes' children spent and, once each, what the members whose
      link is finished did. -/
  spend : (childrenOf s.log).tokens = spentBeside c.node s.log +
    (((s.children c).filter fun child => child.2.isSome).map (spentBy s.logs)).sum
  /-- When the node has ended, that is every member ever born. -/
  counted : s.node ≠ none → ∀ run member, s.logs[run]? = some member →
    ∃ terminal, (run, some terminal) ∈ s.children c

/-! ## Lines -/

namespace Line

variable {logs : OrdMap RunId Member} {children : List Linked} {mode : Nat}

/-- A line is about the logs of its own runs. -/
theorem congr {logs' : OrdMap RunId Member} (h : Line logs children mode)
    (hsame : ∀ child ∈ children, logs'[child.1]? = logs[child.1]?) : Line logs' children mode := by
  induction h with
  | nil => exact .nil
  | superseded run _ hnone ih =>
    refine .superseded run (ih fun child hmem => hsame child (List.mem_append_left _ hmem)) ?_
    rw [hsame (run, none) (by simp), hnone]
  | promoted run tokens _ hlog ih =>
    refine .promoted run tokens
      (ih fun child hmem => hsame child (List.mem_append_left _ hmem)) ?_
    rw [hsame (run, some .promoted) (by simp), hlog]

/-- A link that closed closed as its member's own log did. -/
theorem closed_log (h : Line logs children mode) {run : RunId} {terminal : TerminalState}
    (hmem : (run, some terminal) ∈ children) :
    ∃ mode tokens, logs[run]? = some ⟨mode, some (terminal, tokens)⟩ := by
  induction h with
  | nil => cases hmem
  | superseded other _ _ ih =>
    rcases List.mem_append.mp hmem with hmem | hmem
    · exact ih hmem
    · simp at hmem
  | promoted other tokens _ hlog ih =>
    rcases List.mem_append.mp hmem with hmem | hmem
    · exact ih hmem
    · obtain ⟨rfl, rfl⟩ : run = other ∧ terminal = .promoted := by simpa using hmem
      exact ⟨_, tokens, hlog⟩

/-- A link that never closed was cut before its child's birth. -/
theorem open_unborn (h : Line logs children mode) {run : RunId} (hmem : (run, none) ∈ children) :
    logs[run]? = none := by
  induction h with
  | nil => cases hmem
  | superseded other _ hnone ih =>
    rcases List.mem_append.mp hmem with hmem | hmem
    · exact ih hmem
    · obtain rfl : run = other := by simpa using hmem
      exact hnone
  | promoted other tokens _ _ ih =>
    rcases List.mem_append.mp hmem with hmem | hmem
    · exact ih hmem
    · simp at hmem

/-- After a member that closed, the next one is born in a later mode than the first. -/
theorem after_closed {run : RunId} {terminal : TerminalState}
    (h : Line logs (children ++ [(run, some terminal)]) mode) : mode ≠ 0 := by
  generalize heq : children ++ [(run, some terminal)] = all at h
  cases h with
  | nil => simp at heq
  | superseded other _ _ => simp at heq
  | promoted other tokens _ _ => exact Nat.succ_ne_zero _

end Line

namespace Settled

variable {logs : OrdMap RunId Member} {children : List Linked}

theorem closed_log (h : Settled logs children) {run : RunId} {terminal : TerminalState}
    (hmem : (run, some terminal) ∈ children) :
    ∃ mode tokens, logs[run]? = some ⟨mode, some (terminal, tokens)⟩ := by
  obtain ⟨before, mode, last, terminal', tokens, rfl, hline, hlog, -⟩ := h
  rcases List.mem_append.mp hmem with hmem | hmem
  · exact hline.closed_log hmem
  · obtain ⟨rfl, rfl⟩ : run = last ∧ terminal = terminal' := by simpa using hmem
    exact ⟨mode, tokens, hlog⟩

theorem open_unborn (h : Settled logs children) {run : RunId} (hmem : (run, none) ∈ children) :
    logs[run]? = none := by
  obtain ⟨before, mode, last, terminal, tokens, rfl, hline, -⟩ := h
  rcases List.mem_append.mp hmem with hmem | hmem
  · exact hline.open_unborn hmem
  · simp at hmem

end Settled

/-! ## Where the process stands -/

/-- A member that is open, or closed otherwise than promoted. -/
def Unpromoted (member : Member) : Prop := ∀ tokens, member.closed ≠ some (.promoted, tokens)

/-- A report that says of a member how its own log closed. -/
structure Answers (report : RunTerminal) (terminal : TerminalState) : Prop where
  promoted : report = .promoted ↔ terminal = .promoted
  failed : report = .failed → terminal = .failed

/-- What holds of the links and the logs, by where the process stands. -/
def Stands (c : Composed) (ledger : ChildLedger) (logs : OrdMap RunId Member) :
    Option Driving → Prop
  | none =>
    Line logs (ledger.under c.node) 0 ∨
      ∃ run member, OpenAt logs (ledger.under c.node) run member ∧ Unpromoted member
  | some .linking => Line logs (ledger.under c.node) 0
  | some (.bearing run) =>
    ∃ settled, ledger.under c.node = settled ++ [(run, none)] ∧ Line logs settled 0 ∧
      logs[run]? = none
  | some (.driving run) =>
    ∃ member, OpenAt logs (ledger.under c.node) run member ∧ Unpromoted member
  | some (.reported run report) =>
    ∃ mode terminal tokens, Answers report terminal ∧
      OpenAt logs (ledger.under c.node) run ⟨mode, some (terminal, tokens)⟩
  | some (.handing mode) => Line logs (ledger.under c.node) mode
  | some (.succeeding run) =>
    ∃ mode, Line logs (ledger.under c.node) mode ∧ logs[run]? = some ⟨mode, none⟩ ∧
      run ∉ ledger.ids
  | some (.closing succeeded) => Settled logs (ledger.under c.node) ∧ succeeded = c.succeeds

/-- What the parent's log records of a child whose link closed: how it did, and what its member
    spent. -/
def bookedAs (logs : OrdMap RunId Member) (child : Linked) :
    Option (RunId × TerminalState × TokenUsage) :=
  child.2.map fun terminal => (child.1, terminal, spentBy logs child)

structure Kept (c : Composed) (s : Life) : Prop where
  ids : (childrenOf s.log).ids.Nodup
  fixed : ∀ (run : RunId) mode terminal tokens, s.logs[run]? = some ⟨mode, some (terminal, tokens)⟩ →
    terminal = c.ends mode
  born : ∀ (run : RunId) member, s.logs[run]? = some member →
    run ∈ (s.children c).map (·.1) ∨ s.process = some (.succeeding run)
  booked : (closings c.node s.log).map (fun p => (p.childRunId, p.terminalState, p.tokens)) =
    (s.children c).filterMap (bookedAs s.logs)
  stands : s.node = none → Stands c (childrenOf s.log) s.logs s.process
  ended : ∀ succeeded, s.node = some succeeded →
    succeeded = c.succeeds ∧ s.process = none ∧ Settled s.logs (s.children c)

theorem kept_start (c : Composed) : Kept c {} where
  ids := List.nodup_nil
  fixed run mode terminal tokens h := by simp at h
  born run member h := by simp at h
  booked := rfl
  stands _ := .inl .nil
  ended succeeded h := by cases h

variable {c : Composed} {s : Life}

theorem fresh_iff {run : RunId} :
    s.fresh run = true ↔ run ∉ (childrenOf s.log).ids ∧ s.logs[run]? = none := by
  simp [Life.fresh]

/-- The last child of a list of distinct runs is none of those before it. -/
theorem Kept.last_apart (h : Kept c s) {settled : List Linked} {run : RunId}
    {terminal : Option TerminalState} (heq : s.children c = settled ++ [(run, terminal)]) :
    run ∉ settled.map (·.1) := by
  have hnodup : ((s.children c).map (·.1)).Nodup := ChildLedger.under_ids_nodup c.node h.ids
  rw [heq, List.map_append, List.nodup_append] at hnodup
  exact fun hmem => hnodup.2.2 run hmem run (by simp) rfl

/-- What a list of children was recorded as is about the logs of those that closed. -/
theorem filterMap_bookedAs_congr {logs logs' : OrdMap RunId Member} {children : List Linked}
    (h : ∀ child ∈ children, child.2 ≠ none → logs'[child.1]? = logs[child.1]?) :
    children.filterMap (bookedAs logs') = children.filterMap (bookedAs logs) := by
  refine List.filterMap_congr fun child hmem => ?_
  obtain ⟨run, terminal⟩ := child
  cases terminal with
  | none => rfl
  | some terminal =>
    have hsame := h _ hmem (by simp)
    simp only [bookedAs, spentBy, hsame]

/-- An append to a member's log leaves the lines that do not name it. -/
theorem Line.write {logs : OrdMap RunId Member} {children : List Linked} {mode : Nat} {run : RunId}
    (h : Line logs children mode) (hapart : run ∉ children.map (·.1)) (member : Member) :
    Line (logs.insert run member) children mode :=
  h.congr fun child hmem => by
    have hne : run ≠ child.1 := fun heq => hapart (List.mem_map.mpr ⟨child, hmem, heq.symm⟩)
    rw [OrdMap.getElem?_insert_eq, if_neg hne]

/-- The open child of a node is no child of it that closed. -/
theorem Kept.open_apart (h : Kept c s) {settled : List Linked} {run : RunId}
    (heq : s.children c = settled ++ [(run, none)]) (terminal : TerminalState) :
    (run, some terminal) ∉ s.children c := by
  intro hmem
  rw [heq] at hmem
  rcases List.mem_append.mp hmem with hmem | hmem
  · exact h.last_apart heq (List.mem_map.mpr ⟨_, hmem, rfl⟩)
  · simp at hmem

/-! ### What one act changes -/

/-- The process goes on, and nothing is appended. -/
theorem Kept.moves (h : Kept c s) {next : Option Driving} {node : Option Bool}
    (hnot : ∀ run, s.process ≠ some (.succeeding run))
    (hstands : node = none → Stands c (childrenOf s.log) s.logs next)
    (hended : ∀ succeeded, node = some succeeded →
      succeeded = c.succeeds ∧ next = none ∧ Settled s.logs (s.children c)) :
    Kept c { s with process := next, node := node } where
  ids := h.ids
  fixed := h.fixed
  born run member hlog := .inl ((h.born run member hlog).resolve_right (hnot run))
  booked := h.booked
  stands := hstands
  ended := hended

/-- A member's own log takes an append. -/
theorem Kept.writes (h : Kept c s) {run : RunId} {member : Member} {next : Driving}
    (hnot : ∀ run, s.process ≠ some (.succeeding run)) (hnode : s.node = none)
    (hopen : ∀ terminal, (run, some terminal) ∉ s.children c)
    (hfixed : ∀ terminal tokens, member.closed = some (terminal, tokens) →
      terminal = c.ends member.mode)
    (hborn : run ∈ (s.children c).map (·.1) ∨ next = .succeeding run)
    (hstands : Stands c (childrenOf s.log) (s.logs.insert run member) (some next)) :
    Kept c (s.write run member next) where
  ids := h.ids
  fixed other mode terminal tokens hlog := by
    rw [Life.write, OrdMap.getElem?_insert_eq] at hlog
    split at hlog
    · obtain rfl := Option.some.inj hlog
      exact hfixed terminal tokens rfl
    · exact h.fixed other mode terminal tokens hlog
  born other member' hlog := by
    rw [Life.write, OrdMap.getElem?_insert_eq] at hlog
    split at hlog
    · next heq =>
      subst heq
      exact hborn.imp id (congrArg some)
    · exact .inl ((h.born other member' hlog).resolve_right (hnot other))
  booked := by
    refine h.booked.trans (filterMap_bookedAs_congr fun child hmem hclosed => ?_).symm
    obtain ⟨terminal, hterminal⟩ := Option.ne_none_iff_exists'.mp hclosed
    have hne : run ≠ child.1 := by
      rintro rfl
      exact hopen terminal (hterminal ▸ hmem)
    rw [Life.write, OrdMap.getElem?_insert_eq, if_neg hne]
  stands _ := hstands
  ended succeeded hended := by
    have hnone : (none : Option Bool) = some succeeded := hnode ▸ hended
    cases hnone

theorem children_created (s : Life) (run : RunId) (next : Driving) :
    (s.record c (created c run) next).children c = s.children c ++ [(run, none)] := by
  rw [Life.children, Life.record, childrenOf_append, created, ChildLedger.created_under]
  simp [ChildEntry.meta, Life.children]

theorem ids_created (s : Life) (run : RunId) (next : Driving) :
    (childrenOf (s.record c (created c run) next).log).ids = (childrenOf s.log).ids ++ [run] := by
  rw [Life.record, childrenOf_append, created, ChildLedger.created_ids]

/-- A child is linked on the parent's log. -/
theorem Kept.links (h : Kept c s) {run : RunId} {next : Driving}
    (hapart : run ∉ (childrenOf s.log).ids) (hnode : s.node = none)
    (hborn : ∀ other, s.process = some (.succeeding other) → other = run)
    (hstands : Stands c (childrenOf (s.record c (created c run) next).log) s.logs (some next)) :
    Kept c (s.record c (created c run) next) where
  ids := by
    rw [ids_created]
    exact List.nodup_append.mpr ⟨h.ids, List.nodup_singleton run, fun id hid id' hid' heq =>
      hapart (List.mem_singleton.mp hid' ▸ heq ▸ hid)⟩
  fixed := h.fixed
  born other member hlog := by
    rw [children_created, List.map_append, List.mem_append]
    rcases h.born other member hlog with hmem | hsucc
    · exact .inl (.inl hmem)
    · exact .inl (.inr (by simp [hborn other hsucc]))
  booked := by
    have hnothing : [(run, none)].filterMap (bookedAs s.logs) = [] := rfl
    have hclosings : closings c.node (s.record c (created c run) next).log =
        closings c.node s.log := by
      rw [Life.record, closings_append]
      exact List.append_nil _
    show _ = ((s.record c (created c run) next).children c).filterMap (bookedAs s.logs)
    rw [children_created, List.filterMap_append, hnothing, List.append_nil, hclosings, h.booked]
  stands _ := hstands
  ended succeeded hended := by
    have hnone : (none : Option Bool) = some succeeded := hnode ▸ hended
    cases hnone

/-- The payload that records how a member's link closed. -/
def finished (c : Composed) (run : RunId) (terminal : TerminalState) (tokens : TokenUsage) :
    ChildRunFinishedPayload := ⟨run, c.workflow, terminal, tokens⟩

/-- The open child's link is finished, as its own log closed. -/
theorem Kept.finishes (h : Kept c s) {run : RunId} {mode : Nat} {terminal : TerminalState}
    {tokens : TokenUsage} {next : Driving} (hnode : s.node = none)
    (hnot : ∀ run, s.process ≠ some (.succeeding run))
    (hopen : OpenAt s.logs (s.children c) run ⟨mode, some (terminal, tokens)⟩)
    (hstands : ∀ ledger : ChildLedger,
      (terminal = .promoted → Line s.logs (ledger.under c.node) (mode + 1)) →
      (terminal ≠ .promoted → Settled s.logs (ledger.under c.node)) →
      Stands c ledger s.logs (some next)) :
    Kept c (s.record c (.finished (finished c run terminal tokens)) next) := by
  obtain ⟨settled, hchildren, hline, hlog⟩ := hopen
  have hchild : (run, none) ∈ s.children c := by
    rw [hchildren]
    simp
  have hlinked : run ∈ (childrenOf s.log).ids := ChildLedger.under_subset_ids c.node hchild
  have hafter : (s.record c (.finished (finished c run terminal tokens)) next).children c =
      settled ++ [(run, some terminal)] := by
    rw [Life.children, Life.record, childrenOf_append,
      ChildLedger.finished_under c.node h.ids hlinked, ← Life.children, hchildren]
    exact map_closeLinked_concat (h.last_apart hchildren)
  exact {
    ids := by
      rw [Life.record, childrenOf_append, ChildLedger.finished_ids h.ids hlinked]
      exact h.ids
    fixed := h.fixed
    born := fun other member hother => by
      have hmem := (h.born other member hother).resolve_right (hnot other)
      rw [hchildren] at hmem
      rw [hafter]
      exact .inl (by simpa using hmem)
    booked := by
      have hclosing : closingUnder c.node (some c.node, .finished (finished c run terminal tokens)) =
          some (finished c run terminal tokens) := if_pos rfl
      have hentry : [(run, some terminal)].filterMap (bookedAs s.logs) =
          [(run, terminal, tokens)] := by
        show [(run, terminal, spentBy s.logs (run, some terminal))] = _
        rw [spentBy, hlog]
        rfl
      have hbooked := h.booked
      rw [hchildren, List.filterMap_append] at hbooked
      show _ = List.filterMap (bookedAs s.logs) (Life.children c _)
      rw [hafter, List.filterMap_append, hentry, Life.record, closings_append, List.map_append,
        hbooked, hclosing]
      exact congrArg (· ++ _) (List.append_nil _)
    stands := fun _ => hstands _
      (fun hpromoted => by
        subst hpromoted
        show Line s.logs (Life.children c _) _
        rw [hafter]
        exact .promoted run tokens hline hlog)
      (fun hnot => by
        show Settled s.logs (Life.children c _)
        rw [hafter]
        exact ⟨settled, mode, run, terminal, tokens, rfl, hline, hlog, hnot⟩)
    ended := fun succeeded hended => by
      have hnone : (none : Option Bool) = some succeeded := hnode ▸ hended
      cases hnone }

/-! ## What one act keeps -/

theorem answers_of (terminal : TerminalState) : Answers (.of terminal) terminal := by
  cases terminal <;> exact ⟨by decide, by decide⟩

/-- A report that answers for its member ends the link as the member's log closed. -/
theorem answered_eq {mode : Nat} {terminal : TerminalState} {tokens : TokenUsage}
    {report : RunTerminal} (hfixed : terminal = c.ends mode) (hanswers : Answers report terminal) :
    answered ⟨mode, some (terminal, tokens)⟩ report =
      (terminal, if terminal = .promoted then .handing (mode + 1) else .closing c.succeeds) := by
  have hends : terminal = .promoted ∨ terminal = if c.succeeds then .done else .failed := by
    rw [hfixed, Composed.ends]
    split
    · exact .inl rfl
    · exact .inr rfl
  rcases hends with rfl | hlast
  · rw [hanswers.promoted.mpr rfl]
    rfl
  · cases report with
    | promoted => exact absurd (hanswers.promoted.mp rfl) (by rw [hlast]; split <;> decide)
    | failed =>
      have hfailed := hanswers.failed rfl
      cases hsucceeds : c.succeeds with
      | true => simp [hlast, hsucceeds] at hfailed
      | false =>
        subst hfailed
        rfl
    | finished => cases hsucceeds : c.succeeds <;> simp [hlast, hsucceeds, answered, closedFailed]

/-- Nobody drives a node that ended. -/
theorem Kept.node_open (h : Kept c s) {driving : Driving} (hprocess : s.process = some driving) :
    s.node = none := by
  cases hnode : s.node with
  | none => rfl
  | some succeeded =>
    have hidle := (h.ended succeeded hnode).2.1
    rw [hprocess] at hidle
    cases hidle

/-- Where the process is at something, what it stands on holds. -/
theorem Kept.standing (h : Kept c s) {driving : Driving} (hprocess : s.process = some driving) :
    Stands c (childrenOf s.log) s.logs (some driving) :=
  hprocess ▸ h.stands (h.node_open hprocess)

theorem Kept.enter (h : Kept c s) {s' : Life} (hstep : step c s .enter = some s') : Kept c s' := by
  cases hprocess : s.process with
  | some driving => simp [step, hprocess] at hstep
  | none =>
    cases hnode : s.node with
    | some succeeded => simp [step, hprocess, hnode] at hstep
    | none =>
      have hnot : ∀ run, s.process ≠ some (.succeeding run) := by simp [hprocess]
      have hended : ∀ (next : Option Driving) succeeded, none = some succeeded →
          succeeded = c.succeeds ∧ next = none ∧ Settled s.logs (s.children c) := by simp
      have hstands := h.stands hnode
      rw [hprocess] at hstands
      simp only [step, hprocess, hnode, openUnder_runId] at hstep
      rcases hstands with hline | ⟨run, member, hopen, hunpromoted⟩
      · have hlinking : s' = { s with process := some .linking, node := none } := by
          cases hlast : lastOpen ((childrenOf s.log).under c.node) with
          | none =>
            rw [hlast] at hstep
            exact (Option.some.inj hstep).symm
          | some run =>
            have hunborn := hline.open_unborn (lastOpen_mem hlast)
            simp only [hlast, hunborn, Option.isSome_none, Bool.false_eq_true, if_false] at hstep
            exact (Option.some.inj hstep).symm
        subst hlinking
        exact h.moves hnot (fun _ => hline) (hended _)
      · have hdriving : s' = { s with process := some (.driving run), node := none } := by
          obtain ⟨settled, hchildren, _, hlog⟩ := hopen
          rw [hchildren, lastOpen_concat_open] at hstep
          simp only [hlog, Option.isSome_some, if_true] at hstep
          exact (Option.some.inj hstep).symm
        subst hdriving
        exact h.moves hnot (fun _ => ⟨member, hopen, hunpromoted⟩) (hended _)

theorem Kept.linkChild (h : Kept c s) {run : RunId} {s' : Life}
    (hstep : step c s (.linkChild run) = some s') : Kept c s' := by
  simp only [step] at hstep
  split at hstep
  · next hprocess =>
    split at hstep
    · next hfresh =>
      obtain rfl := Option.some.inj hstep
      obtain ⟨hapart, hunborn⟩ := fresh_iff.mp hfresh
      have hline := h.standing hprocess
      refine h.links hapart (h.node_open hprocess) (by simp [hprocess]) ?_
      exact ⟨s.children c, children_created s run (.bearing run), hline, hunborn⟩
    · cases hstep
  · cases hstep

theorem Kept.createRun (h : Kept c s) {s' : Life} (hstep : step c s .createRun = some s') :
    Kept c s' := by
  simp only [step] at hstep
  split at hstep
  · next run hprocess =>
    obtain rfl := Option.some.inj hstep
    have hstands := h.standing hprocess
    obtain ⟨settled, hchildren, hline, hunborn⟩ := hstands
    have hapart := h.last_apart hchildren
    refine h.writes (by simp [hprocess]) (h.node_open hprocess) (h.open_apart hchildren) (by simp)
      (.inl ?_) ⟨⟨0, none⟩, ⟨settled, hchildren, hline.write hapart _, ?_⟩, by simp [Unpromoted]⟩
    · rw [Life.children, hchildren]
      simp
    · rw [OrdMap.getElem?_insert_eq, if_pos rfl]
  · cases hstep

theorem Kept.runMember (h : Kept c s) {spent : TokenUsage} {s' : Life}
    (hstep : step c s (.runMember spent) = some s') : Kept c s' := by
  simp only [step] at hstep
  split at hstep
  · next run hprocess =>
    have hstands := h.standing hprocess
    obtain ⟨member, ⟨settled, hchildren, hline, hlog⟩, hunpromoted⟩ := hstands
    have hapart := h.last_apart hchildren
    rw [hlog, Option.map_some] at hstep
    obtain rfl := Option.some.inj hstep
    obtain ⟨terminal, tokens, hclosed, hfixed, hanswers⟩ : ∃ terminal tokens,
        (ChildChain.runMember c spent member).2 = ⟨member.mode, some (terminal, tokens)⟩ ∧
        terminal = c.ends member.mode ∧
        Answers (ChildChain.runMember c spent member).1 terminal := by
      obtain ⟨mode, closed⟩ := member
      cases closed with
      | none => exact ⟨_, spent, rfl, rfl, answers_of _⟩
      | some closed =>
        obtain ⟨terminal, tokens⟩ := closed
        have hnot : terminal ≠ .promoted := fun heq => hunpromoted tokens (heq ▸ rfl)
        exact ⟨terminal, tokens, rfl, h.fixed run mode terminal tokens hlog, by
          simp [ChildChain.runMember, hnot], by simp [ChildChain.runMember]⟩
    rw [hclosed]
    refine h.writes (by simp [hprocess]) (h.node_open hprocess) (h.open_apart hchildren) ?_ (.inl ?_)
      ⟨member.mode, terminal, tokens, hanswers, settled, hchildren, hline.write hapart _, ?_⟩
    · rintro terminal' tokens' heq
      obtain ⟨rfl, rfl⟩ : terminal = terminal' ∧ tokens = tokens' := by simpa using heq
      exact hfixed
    · rw [Life.children, hchildren]
      simp
    · rw [OrdMap.getElem?_insert_eq, if_pos rfl]
  · cases hstep

theorem Kept.linkFinished (h : Kept c s) {s' : Life}
    (hstep : step c s .linkFinished = some s') : Kept c s' := by
  simp only [step] at hstep
  split at hstep
  · next run report hprocess =>
    have hstands := h.standing hprocess
    obtain ⟨mode, terminal, tokens, hanswers, hopen⟩ := hstands
    have hlog := hopen.choose_spec.2.2
    have hfixed := h.fixed run mode terminal tokens hlog
    rw [hlog, Option.map_some, answered_eq hfixed hanswers] at hstep
    obtain rfl := Option.some.inj hstep
    refine h.finishes (h.node_open hprocess) (by simp [hprocess]) hopen
      fun ledger hline hsettled => ?_
    by_cases hpromoted : terminal = .promoted
    · rw [if_pos hpromoted]
      exact hline hpromoted
    · rw [if_neg hpromoted]
      exact ⟨hsettled hpromoted, rfl⟩
  · cases hstep

theorem Kept.createSuccessor (h : Kept c s) {run : RunId} {s' : Life}
    (hstep : step c s (.createSuccessor run) = some s') : Kept c s' := by
  simp only [step] at hstep
  split at hstep
  · next mode hprocess =>
    split at hstep
    · next hfresh =>
      obtain rfl := Option.some.inj hstep
      obtain ⟨hapart, hunborn⟩ := fresh_iff.mp hfresh
      have hline := h.standing hprocess
      have hnot : ∀ child ∈ s.children c, child.1 ≠ run := fun child hmem heq =>
        hapart (heq ▸ ChildLedger.under_subset_ids c.node hmem)
      have hnone : run ∉ (s.children c).map (·.1) := fun hmem => by
        obtain ⟨child, hchild, heq⟩ := List.mem_map.mp hmem
        exact hnot child hchild heq
      refine h.writes (by simp [hprocess]) (h.node_open hprocess)
        (fun terminal hmem => hnot _ hmem rfl) (by simp) (.inr rfl)
        ⟨mode, hline.write hnone _, ?_, hapart⟩
      rw [OrdMap.getElem?_insert_eq, if_pos rfl]
    · cases hstep
  · cases hstep

theorem Kept.linkSuccessor (h : Kept c s) {s' : Life}
    (hstep : step c s .linkSuccessor = some s') : Kept c s' := by
  simp only [step] at hstep
  split at hstep
  · next run hprocess =>
    obtain rfl := Option.some.inj hstep
    have hstands := h.standing hprocess
    obtain ⟨mode, hline, hlog, hapart⟩ := hstands
    refine h.links hapart (h.node_open hprocess) (fun other hother => ?_) ?_
    · rw [hprocess] at hother
      exact (Driving.succeeding.inj (Option.some.inj hother)).symm
    · exact ⟨⟨mode, none⟩, ⟨s.children c, children_created s run (.driving run), hline, hlog⟩,
        by simp [Unpromoted]⟩
  · cases hstep

theorem Kept.closeNode (h : Kept c s) {s' : Life} (hstep : step c s .closeNode = some s') :
    Kept c s' := by
  simp only [step] at hstep
  split at hstep
  · next succeeded hprocess =>
    obtain rfl := Option.some.inj hstep
    have hstands := h.standing hprocess
    obtain ⟨hsettled, hsucceeded⟩ := hstands
    refine h.moves (by simp [hprocess]) (fun hnone => by cases hnone) fun other heq => ?_
    obtain rfl := Option.some.inj heq
    exact ⟨hsucceeded, rfl, hsettled⟩
  · cases hstep

/-- A crash anywhere but on the way to a successor or to the node's close leaves what the next entry
    finds. -/
theorem Kept.crash (h : Kept c s) (hmeets : handsOver s.process = false) {s' : Life}
    (hstep : step c s .crash = some s') : Kept c s' := by
  obtain rfl := Option.some.inj hstep
  refine h.moves (fun run heq => by simp [handsOver, heq] at hmeets) (fun hnode => ?_)
    fun succeeded hnode => ⟨(h.ended succeeded hnode).1, rfl, (h.ended succeeded hnode).2.2⟩
  have hstands := h.stands hnode
  cases hprocess : s.process with
  | none => rwa [hprocess] at hstands
  | some driving =>
    rw [hprocess] at hstands hmeets
    cases driving with
    | linking => exact .inl hstands
    | bearing run =>
      obtain ⟨settled, hchildren, hline, hunborn⟩ := hstands
      refine .inl ?_
      rw [hchildren]
      exact .superseded run hline hunborn
    | driving run => exact .inr ⟨run, hstands⟩
    | reported run report =>
      obtain ⟨mode, terminal, tokens, hanswers, hopen⟩ := hstands
      refine .inr ⟨run, _, hopen, fun tokens' heq => ?_⟩
      have hpromoted : terminal = .promoted := by simpa using congrArg (Option.map (·.1)) heq
      rw [hanswers.promoted.mpr hpromoted] at hmeets
      cases hmeets
    | handing mode => cases hmeets
    | succeeding run => cases hmeets
    | closing succeeded => cases hmeets

/-- What holds of the links and the logs is about the node's children and the ids minted. -/
theorem Stands.congr {ledger ledger' : ChildLedger} {logs : OrdMap RunId Member}
    {process : Option Driving} (h : Stands c ledger logs process)
    (hunder : ledger'.under c.node = ledger.under c.node)
    (hids : ∀ (run : RunId) member, logs[run]? = some member → run ∉ ledger.ids →
      run ∉ ledger'.ids) :
    Stands c ledger' logs process := by
  cases process with
  | none => rwa [Stands, hunder]
  | some driving =>
    cases driving with
    | succeeding run =>
      obtain ⟨mode, hline, hlog, hapart⟩ := h
      exact ⟨mode, hunder ▸ hline, hlog, hids run _ hlog hapart⟩
    | _ => rwa [Stands, hunder]

/-- An event of another node leaves the children of this one. -/
theorem Kept.passes (h : Kept c s) {entry : ChildEntry}
    (hids : (childrenOf (s.log ++ [entry])).ids.Nodup)
    (hunder : (childrenOf (s.log ++ [entry])).under c.node = (childrenOf s.log).under c.node)
    (hclosing : closingUnder c.node entry = none)
    (happart : ∀ (run : RunId) member, s.logs[run]? = some member →
      run ∉ (childrenOf s.log).ids → run ∉ (childrenOf (s.log ++ [entry])).ids) :
    Kept c { s with log := s.log ++ [entry] } where
  ids := hids
  fixed := h.fixed
  born run member hlog := by
    show run ∈ ((childrenOf (s.log ++ [entry])).under c.node).map (·.1) ∨ _
    rw [hunder]
    exact h.born run member hlog
  booked := by
    show _ = ((childrenOf (s.log ++ [entry])).under c.node).filterMap (bookedAs s.logs)
    rw [hunder, closings_append, hclosing]
    exact (congrArg _ (List.append_nil _)).trans h.booked
  stands hnode := (h.stands hnode).congr hunder happart
  ended succeeded hnode := by
    show _ ∧ _ ∧ Settled s.logs ((childrenOf (s.log ++ [entry])).under c.node)
    rw [hunder]
    exact h.ended succeeded hnode

theorem Kept.beside (h : Kept c s) {entry : ChildEntry} {s' : Life}
    (hstep : step c s (.beside entry) = some s') : Kept c s' := by
  simp only [step] at hstep
  split at hstep
  case isFalse => cases hstep
  case isTrue htakes =>
    obtain rfl := Option.some.inj hstep
    obtain ⟨under, event⟩ := entry
    cases event with
    | created p =>
      obtain ⟨hother, hfresh⟩ : under ≠ some c.node ∧ s.fresh p.childRunId = true := by
        simpa [takesBeside] using htakes
      obtain ⟨hapart, hunborn⟩ := fresh_iff.mp hfresh
      have hids : (childrenOf (s.log ++ [(under, .created p)])).ids =
          (childrenOf s.log).ids ++ [p.childRunId] := by
        rw [childrenOf_append, ChildLedger.created_ids]
      refine h.passes ?_ ?_ rfl ?_
      · rw [hids]
        exact List.nodup_append.mpr ⟨h.ids, List.nodup_singleton _, fun id hid id' hid' heq =>
          hapart (List.mem_singleton.mp hid' ▸ heq ▸ hid)⟩
      · rw [childrenOf_append, ChildLedger.created_under]
        simp [ChildEntry.meta, hother]
      · intro run member hlog hnot hmem
        rw [hids] at hmem
        rcases List.mem_append.mp hmem with hmem | hmem
        · exact hnot hmem
        · rw [List.mem_singleton.mp hmem, hunborn] at hlog
          cases hlog
    | finished p =>
      obtain ⟨⟨hother, hlinked⟩, hnot⟩ : (under ≠ some c.node ∧
          p.childRunId ∈ (childrenOf s.log).ids) ∧
          p.childRunId ∉ (s.children c).map (·.1) := by
        simpa [takesBeside] using htakes
      have hids : (childrenOf (s.log ++ [(under, .finished p)])).ids = (childrenOf s.log).ids := by
        rw [childrenOf_append, ChildLedger.finished_ids h.ids hlinked]
      refine h.passes (hids ▸ h.ids) ?_ (if_neg hother) fun run member hlog hrun => hids ▸ hrun
      rw [childrenOf_append, ChildLedger.finished_under c.node h.ids hlinked]
      exact map_closeLinked_of_notMem hnot
    | loopIteration p =>
      have hledger : (childrenOf (s.log ++ [(under, .loopIteration p)])).links =
          (childrenOf s.log).links := by
        rw [childrenOf_append]
        rfl
      have hids : (childrenOf (s.log ++ [(under, .loopIteration p)])).ids =
          (childrenOf s.log).ids := by rw [ChildLedger.ids, hledger, ChildLedger.ids]
      refine h.passes (hids ▸ h.ids) ?_ rfl fun run member hlog hrun => hids ▸ hrun
      rw [ChildLedger.under, hledger, ChildLedger.under]

/-- **One act** that cuts no handover keeps what the node's links and its members' logs say. -/
theorem kept_step (h : Kept c s) {act : Act} (hmeets : HandedOver s act) {s' : Life}
    (hstep : step c s act = some s') : Kept c s' := by
  cases act with
  | enter => exact h.enter hstep
  | linkChild run => exact h.linkChild hstep
  | createRun => exact h.createRun hstep
  | runMember spent => exact h.runMember hstep
  | linkFinished => exact h.linkFinished hstep
  | createSuccessor run => exact h.createSuccessor hstep
  | linkSuccessor => exact h.linkSuccessor hstep
  | closeNode => exact h.closeNode hstep
  | beside entry => exact h.beside hstep
  | crash => exact h.crash hmeets hstep

theorem kept_reached (h : Reached (step c) HandedOver {} s) : Kept c s :=
  h.invariant (kept_start c) fun _ _ _ hkept hmeets hstep => kept_step hkept hmeets hstep

/-! ## The node's end -/

/-- Whatever ids were minted, another can be. -/
theorem exists_fresh (s : Life) : ∃ run, s.fresh run = true := by
  obtain ⟨run, hrun⟩ :=
    Infinite.exists_notMem_finset ((childrenOf s.log).ids ++ s.logs.keys).toFinset
  rw [List.mem_toFinset, List.mem_append, not_or] at hrun
  refine ⟨run, fresh_iff.mpr ⟨hrun.1, ?_⟩⟩
  exact Std.ExtTreeMap.getElem?_eq_none fun hmem => hrun.2 (Std.ExtTreeMap.mem_keys.mpr hmem)

/-- Going on from here, with no crash and nothing from another node, the node ends as its last
    member does. -/
def CanEnd (c : Composed) (s : Life) : Prop :=
  ∃ s', Reached (step c) Onward s s' ∧ s'.node = some c.succeeds

theorem CanEnd.before {act : Act} {s' : Life} (h : CanEnd c s') (hstep : step c s act = some s')
    (honward : Onward s act) : CanEnd c s := by
  obtain ⟨last, hreached, hnode⟩ := h
  exact ⟨last, (Reached.snoc act .refl honward hstep).trans hreached, hnode⟩

theorem canEnd_closing (h : Kept c s) {succeeded : Bool}
    (hprocess : s.process = some (.closing succeeded)) : CanEnd c s := by
  have hstands := h.standing hprocess
  have hstep : step c s .closeNode = some { s with node := some succeeded, process := none } := by
    simp [step, hprocess]
  exact CanEnd.before ⟨_, .refl, congrArg some hstands.2⟩ hstep trivial

/-- A report of a member that handed nothing over closes the node. -/
theorem canEnd_settled (h : Kept c s) {run : RunId} {report : RunTerminal} {mode : Nat}
    {terminal : TerminalState} {tokens : TokenUsage}
    (hprocess : s.process = some (.reported run report))
    (hlog : s.logs[run]? = some ⟨mode, some (terminal, tokens)⟩) (hanswers : Answers report terminal)
    (hlast : terminal ≠ .promoted) : CanEnd c s := by
  have hanswered : answered ⟨mode, some (terminal, tokens)⟩ report =
      (terminal, .closing c.succeeds) := by
    rw [answered_eq (h.fixed run mode terminal tokens hlog) hanswers, if_neg hlast]
  have hstep : step c s .linkFinished =
      some (s.record c (.finished (finished c run terminal tokens)) (.closing c.succeeds)) := by
    simp [step, hprocess, hlog, hanswered, finished, Member.spent]
  exact (canEnd_closing (h.linkFinished hstep) rfl).before hstep trivial

/-- A successor owed is born, linked and driven. -/
theorem canEnd_handing (h : Kept c s) {mode : Nat} (hprocess : s.process = some (.handing mode))
    (hnext : ∀ s' run, Kept c s' → s'.process = some (.driving run) →
      s'.logs[run]? = some ⟨mode, none⟩ → CanEnd c s') : CanEnd c s := by
  obtain ⟨run, hfresh⟩ := exists_fresh s
  have hborn : step c s (.createSuccessor run) = some (s.write run ⟨mode, none⟩ (.succeeding run)) := by
    simp [step, hprocess, hfresh]
  have hkept := h.createSuccessor hborn
  have hlinked : step c (s.write run ⟨mode, none⟩ (.succeeding run)) .linkSuccessor =
      some ((s.write run ⟨mode, none⟩ (.succeeding run)).record c (created c run)
        (.driving run)) := rfl
  refine ((hnext _ run (hkept.linkSuccessor hlinked) rfl ?_).before hlinked trivial).before hborn
    trivial
  show (s.logs.insert run ⟨mode, none⟩)[run]? = _
  rw [OrdMap.getElem?_insert_eq, if_pos rfl]

/-- A promoted member hands over to a successor in the next mode. -/
theorem canEnd_promoted (h : Kept c s) {run : RunId} {report : RunTerminal} {mode : Nat}
    {tokens : TokenUsage} (hprocess : s.process = some (.reported run report))
    (hlog : s.logs[run]? = some ⟨mode, some (.promoted, tokens)⟩) (hanswers : Answers report .promoted)
    (hnext : ∀ s' run, Kept c s' → s'.process = some (.driving run) →
      s'.logs[run]? = some ⟨mode + 1, none⟩ → CanEnd c s') : CanEnd c s := by
  have hanswered : answered ⟨mode, some (.promoted, tokens)⟩ report =
      (.promoted, .handing (mode + 1)) := by
    rw [answered_eq (h.fixed run mode _ tokens hlog) hanswers, if_pos rfl]
  have hstep : step c s .linkFinished =
      some (s.record c (.finished (finished c run .promoted tokens)) (.handing (mode + 1))) := by
    simp [step, hprocess, hlog, hanswered, finished, Member.spent]
  exact (canEnd_handing (h.linkFinished hstep) rfl hnext).before hstep trivial

/-- A driven member closes, and hands over if a promotion is still to come. -/
theorem canEnd_member (h : Kept c s) {run : RunId} {member : Member}
    (hprocess : s.process = some (.driving run)) (hlog : s.logs[run]? = some member)
    (hnext : member.mode < c.promotions → ∀ s' run, Kept c s' → s'.process = some (.driving run) →
      s'.logs[run]? = some ⟨member.mode + 1, none⟩ → CanEnd c s') : CanEnd c s := by
  have hstep : step c s (.runMember 0) = some (s.write run (runMember c 0 member).2
      (.reported run (runMember c 0 member).1)) := by
    simp [step, hprocess, hlog]
  have hkept := h.runMember hstep
  have hwritten : (s.write run (runMember c 0 member).2
      (.reported run (runMember c 0 member).1)).logs[run]? = some (runMember c 0 member).2 := by
    rw [Life.write, OrdMap.getElem?_insert_eq, if_pos rfl]
  refine CanEnd.before ?_ hstep trivial
  obtain ⟨mode, closed⟩ := member
  cases closed with
  | some closed =>
    obtain ⟨terminal, tokens⟩ := closed
    have hstands := h.standing hprocess
    obtain ⟨member', ⟨_, _, _, hlog'⟩, hunpromoted⟩ := hstands
    obtain rfl := Option.some.inj (hlog.symm.trans hlog')
    have hnot : terminal ≠ .promoted := fun heq => hunpromoted tokens (heq ▸ rfl)
    exact canEnd_settled hkept rfl hwritten ⟨by simp [runMember, hnot], by simp [runMember]⟩ hnot
  | none =>
    by_cases hpromoted : c.ends mode = .promoted
    · have hlt : mode < c.promotions := by
        by_contra hlast
        rw [Composed.ends, if_neg hlast] at hpromoted
        split at hpromoted <;> cases hpromoted
      simp only [runMember, hpromoted] at hkept hwritten ⊢
      exact canEnd_promoted hkept rfl hwritten (answers_of _) (hnext hlt)
    · exact canEnd_settled hkept rfl hwritten (answers_of _) hpromoted

/-- **A driven member reaches the node's end**, by induction on the promotions still to come. -/
theorem canEnd_driving {run : RunId} {member : Member} {left : Nat} (h : Kept c s)
    (hprocess : s.process = some (.driving run)) (hlog : s.logs[run]? = some member)
    (hleft : c.promotions ≤ member.mode + left) : CanEnd c s := by
  induction left generalizing s run member with
  | zero =>
    exact canEnd_member h hprocess hlog fun hlt => absurd hleft (Nat.not_le.mpr hlt)
  | succ left ih =>
    refine canEnd_member h hprocess hlog fun _ s' run' hkept hdriving hborn =>
      ih hkept hdriving hborn ?_
    show c.promotions ≤ member.mode + 1 + left
    omega

theorem canEnd_bearing (h : Kept c s) {run : RunId}
    (hprocess : s.process = some (.bearing run)) : CanEnd c s := by
  have hstep : step c s .createRun = some (s.write run ⟨0, none⟩ (.driving run)) := by
    simp [step, hprocess]
  have hborn : (s.write run ⟨0, none⟩ (.driving run)).logs[run]? = some ⟨0, none⟩ := by
    rw [Life.write, OrdMap.getElem?_insert_eq, if_pos rfl]
  have hleft : c.promotions ≤ 0 + c.promotions := by omega
  exact (canEnd_driving (h.createRun hstep) rfl hborn hleft).before hstep trivial

theorem canEnd_linking (h : Kept c s) (hprocess : s.process = some .linking) : CanEnd c s := by
  obtain ⟨run, hfresh⟩ := exists_fresh s
  have hstep : step c s (.linkChild run) = some (s.record c (created c run) (.bearing run)) := by
    simp [step, hprocess, hfresh]
  exact (canEnd_bearing (h.linkChild hstep) rfl).before hstep trivial

/-- **Wherever the process stands**, the node can be driven to its end. -/
theorem Kept.canEnd_driven (h : Kept c s) {driving : Driving}
    (hprocess : s.process = some driving) : CanEnd c s := by
  have hstands := h.standing hprocess
  have hnext : ∀ (mode : Nat) s' run, Kept c s' → s'.process = some (.driving run) →
      s'.logs[run]? = some ⟨mode, none⟩ → CanEnd c s' := fun mode s' run hkept hdriving hborn => by
    have hleft : c.promotions ≤ mode + c.promotions := by omega
    exact canEnd_driving hkept hdriving hborn hleft
  cases driving with
  | linking => exact canEnd_linking h hprocess
  | bearing run => exact canEnd_bearing h hprocess
  | driving run =>
    obtain ⟨member, ⟨_, _, _, hlog⟩, _⟩ := hstands
    have hleft : c.promotions ≤ member.mode + c.promotions := by omega
    exact canEnd_driving h hprocess hlog hleft
  | reported run report =>
    obtain ⟨mode, terminal, tokens, hanswers, _, _, _, hlog⟩ := hstands
    by_cases hpromoted : terminal = .promoted
    · subst hpromoted
      exact canEnd_promoted h hprocess hlog hanswers (hnext _)
    · exact canEnd_settled h hprocess hlog hanswers hpromoted
  | handing mode => exact canEnd_handing h hprocess (hnext mode)
  | succeeding run =>
    obtain ⟨mode, _, hlog, _⟩ := hstands
    have hstep : step c s .linkSuccessor = some (s.record c (created c run) (.driving run)) := by
      simp [step, hprocess]
    exact (hnext mode _ run (h.linkSuccessor hstep) rfl hlog).before hstep trivial
  | closing succeeded => exact canEnd_closing h hprocess

theorem Kept.canEnd (h : Kept c s) : CanEnd c s := by
  cases hprocess : s.process with
  | some driving => exact h.canEnd_driven hprocess
  | none =>
    cases hnode : s.node with
    | some succeeded => exact ⟨s, .refl, hnode.trans (congrArg some (h.ended succeeded hnode).1)⟩
    | none =>
      obtain ⟨s', driving, hstep, hdriving⟩ : ∃ s' driving,
          step c s .enter = some s' ∧ s'.process = some driving := by
        simp only [step, hprocess, hnode]
        split
        · split
          · exact ⟨_, _, rfl, rfl⟩
          · exact ⟨_, _, rfl, rfl⟩
        · exact ⟨_, _, rfl, rfl⟩
      exact ((h.enter hstep).canEnd_driven hdriving).before hstep trivial

/-! ## Main result -/

/-- A child whose link closed is among those its node recorded, as it did. -/
theorem mem_bookedAs {logs : OrdMap RunId Member} {children : List Linked} {run : RunId}
    {terminal : TerminalState} {tokens : TokenUsage}
    (h : (run, terminal, tokens) ∈ children.filterMap (bookedAs logs)) :
    (run, some terminal) ∈ children ∧ tokens = spentBy logs (run, some terminal) := by
  obtain ⟨⟨other, closed⟩, hmem, hbooked⟩ := List.mem_filterMap.mp h
  cases closed with
  | none => cases hbooked
  | some closed =>
    obtain ⟨rfl, rfl, rfl⟩ : other = run ∧ closed = terminal ∧ _ = tokens := by
      simpa [bookedAs] using hbooked
    exact ⟨hmem, rfl⟩

/-- What is read off the recorded children is read off those whose link closed. -/
theorem map_bookedAs {β : Type} {logs : OrdMap RunId Member}
    (f : RunId × TerminalState × TokenUsage → β) (g : Linked → β)
    (h : ∀ run terminal, f (run, terminal, spentBy logs (run, some terminal)) =
      g (run, some terminal)) (children : List Linked) :
    (children.filterMap (bookedAs logs)).map f =
      (children.filter fun child => child.2.isSome).map g := by
  induction children with
  | nil => rfl
  | cons child rest ih =>
    obtain ⟨run, terminal⟩ := child
    cases terminal with
    | none => exact ih
    | some terminal => exact congrArg₂ List.cons (h run terminal) ih

/-- Whatever the process is at, each link closed as its member's log did, in the order of modes. -/
theorem Kept.driven (h : Kept c s) : (∃ mode, Line s.logs (s.children c) mode) ∨
    (∃ run member, OpenAt s.logs (s.children c) run member) ∨
    Settled s.logs (s.children c) := by
  cases hprocess : s.process with
  | none =>
    cases hnode : s.node with
    | some succeeded => exact .inr (.inr (h.ended succeeded hnode).2.2)
    | none =>
      have hstands := h.stands hnode
      rw [hprocess] at hstands
      rcases hstands with hline | ⟨run, member, hopen, -⟩
      · exact .inl ⟨0, hline⟩
      · exact .inr (.inl ⟨run, member, hopen⟩)
  | some driving =>
    have hstands := h.standing hprocess
    cases driving with
    | linking => exact .inl ⟨0, hstands⟩
    | bearing run =>
      obtain ⟨settled, hchildren, hline, hunborn⟩ := hstands
      rw [Life.children, hchildren]
      exact .inl ⟨0, .superseded run hline hunborn⟩
    | driving run =>
      obtain ⟨member, hopen, -⟩ := hstands
      exact .inr (.inl ⟨run, member, hopen⟩)
    | reported run report =>
      obtain ⟨mode, terminal, tokens, -, hopen⟩ := hstands
      exact .inr (.inl ⟨run, _, hopen⟩)
    | handing mode => exact .inl ⟨mode, hstands⟩
    | succeeding run =>
      obtain ⟨mode, hline, -⟩ := hstands
      exact .inl ⟨mode, hline⟩
    | closing succeeded => exact .inr (.inr hstands.1)

theorem Kept.closed_log (h : Kept c s) {run : RunId} {terminal : TerminalState}
    (hmem : (run, some terminal) ∈ s.children c) :
    ∃ mode tokens, s.logs[run]? = some ⟨mode, some (terminal, tokens)⟩ := by
  rcases h.driven with ⟨mode, hline⟩ | ⟨other, member, settled, hchildren, hline, -⟩ | hsettled
  · exact hline.closed_log hmem
  · rw [hchildren] at hmem
    rcases List.mem_append.mp hmem with hmem | hmem
    · exact hline.closed_log hmem
    · simp at hmem
  · exact hsettled.closed_log hmem

/-- **A chain of children survives any crash that cuts no handover**: in every run no crash of which
    falls between a member's close as promoted and the link of its successor, or between the last
    member's link and the node's close, the node ends as the uncut chain does, each link closes as
    its member's log did, each member works in the mode handed to it, none follows one that closed
    otherwise than promoted, and each is counted once. -/
theorem survives (c : Composed) (s : Life) (h : Reached (step c) HandedOver {} s) :
    Survives c s := by
  have hkept := kept_reached h
  exact {
    ends := fun succeeded hnode =>
      ⟨(hkept.ended succeeded hnode).1, (hkept.ended succeeded hnode).2.2⟩
    resumes := hkept.canEnd
    driven := hkept.driven
    faithful := fun p hmem => by
      have hbooked : (p.childRunId, p.terminalState, p.tokens) ∈
          (s.children c).filterMap (bookedAs s.logs) :=
        hkept.booked ▸ List.mem_map.mpr ⟨p, hmem, rfl⟩
      obtain ⟨hlinked, htokens⟩ := mem_bookedAs hbooked
      obtain ⟨mode, tokens, hlog⟩ := hkept.closed_log hlinked
      have hspent : p.tokens = tokens := by
        rw [htokens, spentBy, hlog]
        rfl
      exact ⟨mode, hspent ▸ hlog⟩
    once := by
      have hruns : (closings c.node s.log).map (·.childRunId) =
          ((s.children c).filter fun child => child.2.isSome).map (·.1) := by
        rw [← map_bookedAs (·.1) (·.1) (fun _ _ => rfl), ← hkept.booked, List.map_map]
        rfl
      rw [hruns]
      exact (ChildLedger.under_ids_nodup c.node hkept.ids).sublist (List.filter_sublist.map _)
    spend := by
      rw [childrenOf_tokens c.node, ← map_bookedAs (·.2.2) (spentBy s.logs) (fun _ _ => rfl),
        ← hkept.booked, List.map_map]
      rfl
    counted := fun hnode run member hlog => by
      obtain ⟨succeeded, hsucceeded⟩ := Option.ne_none_iff_exists'.mp hnode
      obtain ⟨-, hidle, hsettled⟩ := hkept.ended succeeded hsucceeded
      have hborn := (hkept.born run member hlog).resolve_right (by rw [hidle]; simp)
      obtain ⟨⟨other, terminal⟩, hmem, rfl⟩ := List.mem_map.mp hborn
      cases terminal with
      | some terminal => exact ⟨terminal, hmem⟩
      | none =>
        rw [hsettled.open_unborn hmem] at hlog
        cases hlog }

/-- A chain that promotes once and then fails. -/
def promotesOnce : Composed := ⟨"compose", "h", 1, false⟩

/-- Cut before the child's birth, while it works, while its successor does, and after the successor's
    own log closed failed. -/
def cutFourTimes : List Act :=
  [.enter, .linkChild "lost", .crash,
   .enter, .linkChild "child", .createRun, .crash,
   .enter, .runMember ⟨7, 0, none⟩, .linkFinished, .createSuccessor "next", .linkSuccessor, .crash,
   .enter, .runMember ⟨5, 0, none⟩, .crash,
   .enter, .runMember 0, .linkFinished, .closeNode]

theorem survives_cut :
    ∃ s, s.node = some false ∧ (childrenOf s.log).tokens = ⟨12, 0, none⟩ ∧
      Survives promotesOnce s := by
  obtain ⟨s, hreached, hnode⟩ := exists_reached (step promotesOnce) HandedOver {} cutFourTimes
    (fun s => s.node = some false ∧ (childrenOf s.log).tokens = ⟨12, 0, none⟩) (by decide +kernel)
  obtain ⟨hfailed, htokens⟩ := of_decide_eq_true hnode
  exact ⟨s, hfailed, htokens, survives promotesOnce s hreached⟩

/-! ## A handover cut short -/

/-- The child closes promoted, and the process dies before the link says so: re-entered, the child
    answers finished, and the node takes it for one that closed done. -/
def cutBeforeLink : List Act :=
  [.enter, .linkChild "child", .createRun, .runMember ⟨7, 0, none⟩, .crash,
   .enter, .runMember 0, .linkFinished, .closeNode]

/-- The last link is finished, and the process dies before what follows it, the successor's link or
    the node's close: a fresh child starts in the workflow's first mode. -/
def cutAfterLink : List Act :=
  [.enter, .linkChild "child", .createRun, .runMember ⟨7, 0, none⟩, .linkFinished, .crash,
   .enter, .linkChild "again", .createRun]

/-- A chain whose first member fails. -/
def failsAtOnce : Composed := ⟨"compose", "h", 0, false⟩

/-- A child born in the first mode behind one whose link is closed is no member of its chain. -/
theorem not_survives_again {terminal : TerminalState}
    (hchildren : s.children c = [("child", some terminal), ("again", none)])
    (hlog : s.logs["again"]? = some ⟨0, none⟩) : ¬ Survives c s := by
  intro h
  have hfirst : s.children c = [("child", some terminal)] ++ [("again", none)] := hchildren
  have hlast : (("again", none) : Linked) ∈ s.children c :=
    hfirst ▸ List.mem_append_right _ List.mem_cons_self
  have hborn : s.logs["again"]? ≠ none := by simp [hlog]
  rcases h.driven with ⟨mode, hline⟩ | ⟨run, member, settled, hsettled, hline, hmember⟩ | hsettled
  · exact hborn (hline.open_unborn hlast)
  · obtain ⟨rfl, hopen⟩ := List.append_inj' (hfirst.symm.trans hsettled) rfl
    obtain rfl : "again" = run := by simpa using hopen
    obtain rfl : (⟨0, none⟩ : Member) = member := by simpa [hlog] using hmember
    exact Line.after_closed (show Line s.logs ([] ++ [("child", some terminal)]) 0 from hline) rfl
  · exact hborn (hsettled.open_unborn hlast)

/-- In a chain cut at one of these appends the child that closed hands nothing over: the node ends as
    its uncut chain does not, or another child of the first mode takes the place of the successor, or
    follows a chain that is over. -/
theorem not_survives :
    (∃ s, Reached (step promotesOnce) Free {} s ∧ s.node = some true ∧ ¬ Survives promotesOnce s) ∧
    (∃ s, Reached (step promotesOnce) Free {} s ∧ ¬ Survives promotesOnce s ∧
      s.children promotesOnce = [("child", some .promoted), ("again", none)] ∧
      s.logs["again"]? = some ⟨0, none⟩) ∧
    ∃ s, Reached (step failsAtOnce) Free {} s ∧ ¬ Survives failsAtOnce s ∧
      s.children failsAtOnce = [("child", some .failed), ("again", none)] ∧
      s.logs["again"]? = some ⟨0, none⟩ := by
  refine ⟨?_, ?_, ?_⟩
  · obtain ⟨s, hreached, hnode⟩ := exists_reached (step promotesOnce) Free {} cutBeforeLink
      (fun s => s.node = some true) (by decide +kernel)
    have hended : s.node = some true := of_decide_eq_true hnode
    exact ⟨s, hreached, hended, fun h => by cases (h.ends true hended).1⟩
  · obtain ⟨s, hreached, hstands⟩ := exists_reached (step promotesOnce) Free {} cutAfterLink
      (fun s => s.children promotesOnce = [("child", some .promoted), ("again", none)] ∧
        s.logs["again"]? = some ⟨0, none⟩) (by decide +kernel)
    obtain ⟨hchildren, hlog⟩ := of_decide_eq_true hstands
    exact ⟨s, hreached, not_survives_again hchildren hlog, hchildren, hlog⟩
  · obtain ⟨s, hreached, hstands⟩ := exists_reached (step failsAtOnce) Free {} cutAfterLink
      (fun s => s.children failsAtOnce = [("child", some .failed), ("again", none)] ∧
        s.logs["again"]? = some ⟨0, none⟩) (by decide +kernel)
    obtain ⟨hchildren, hlog⟩ := of_decide_eq_true hstands
    exact ⟨s, hreached, not_survives_again hchildren hlog, hchildren, hlog⟩

end Yunta.ChildChain
