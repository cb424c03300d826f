/-
  The child runs one node started, read off its run's log.

  1. **The log** — `childrenOf` folds the child events of a log; `under` lists the children a node
     started with how each link closed, and `closings` what the node recorded of those that closed.

  2. **What one event does** — a `child_run_created` adds one open link (`created_under`), and among
     links of distinct runs a `child_run_finished` closes the one of its run alone
     (`finished_under`).
-/
import Yunta.Ledgers.Children
import Mathlib.Data.List.Nodup
import Mathlib.Data.List.Induction

set_option linter.unusedVariables false

namespace Yunta

/-! ## The log -/

/-- A child event and the node it was written under. -/
abbrev ChildEntry := Option NodeId × ChildEvent

/-- The envelope of an entry: the ledger reads nothing of it but the node. -/
def ChildEntry.meta (entry : ChildEntry) : EventMeta := ⟨0, 0, entry.1⟩

/-- The ledger of a log's child events. -/
def childrenOf (log : List ChildEntry) : ChildLedger :=
  log.foldl (fun ledger entry => ledger.apply entry.2 (ChildEntry.meta entry)) {}

/-- A child as its parent's log knows it: its run, and how its link closed. -/
abbrev Linked := RunId × Option TerminalState

def ChildLink.linked (link : ChildLink) : Linked := (link.runId, link.terminal)

/-- The children `node` started, in order. -/
def ChildLedger.under (l : ChildLedger) (node : NodeId) : List Linked :=
  (l.links.filter fun link => link.node = some node).map ChildLink.linked

/-- What one entry records of a child of `node` that closed. -/
def closingUnder (node : NodeId) : ChildEntry → Option ChildRunFinishedPayload
  | (under, .finished p) => if under = some node then some p else none
  | _ => none

/-- The child runs `node` recorded as closed, in order. -/
def closings (node : NodeId) (log : List ChildEntry) : List ChildRunFinishedPayload :=
  log.filterMap (closingUnder node)

/-- What one entry records that a child of another node spent. -/
def spendsBeside (node : NodeId) : ChildEntry → TokenUsage
  | (under, .finished p) => if under = some node then 0 else p.tokens
  | _ => 0

/-- What the child runs of other nodes spent. -/
def spentBeside (node : NodeId) (log : List ChildEntry) : TokenUsage :=
  (log.map (spendsBeside node)).sum

theorem childrenOf_append (log : List ChildEntry) (entry : ChildEntry) :
    childrenOf (log ++ [entry]) = (childrenOf log).apply entry.2 (ChildEntry.meta entry) := by
  rw [childrenOf, List.foldl_append]
  rfl

theorem closings_append (node : NodeId) (log : List ChildEntry) (entry : ChildEntry) :
    closings node (log ++ [entry]) = closings node log ++ (closingUnder node entry).toList := by
  rw [closings, List.filterMap_append, ← closings]
  cases hclosing : closingUnder node entry <;> simp [hclosing]

/-- An entry spends under the node or beside it. -/
theorem apply_tokens (l : ChildLedger) (node : NodeId) (entry : ChildEntry) :
    (l.apply entry.2 (ChildEntry.meta entry)).tokens =
      l.tokens + (spendsBeside node entry + ((closingUnder node entry).toList.map (·.tokens)).sum) := by
  obtain ⟨under, event⟩ := entry
  cases event with
  | finished p =>
    have happly : (l.apply (.finished p) ⟨0, 0, under⟩).tokens = l.tokens + p.tokens := rfl
    rw [ChildEntry.meta, happly]
    by_cases hunder : under = some node <;> simp [spendsBeside, closingUnder, hunder]
  | created p => simp [ChildLedger.apply, spendsBeside, closingUnder]
  | loopIteration p => simp [ChildLedger.apply, spendsBeside, closingUnder]

/-- **A log's spend**: what the children of `node` recorded, and what the others did. -/
theorem childrenOf_tokens (node : NodeId) (log : List ChildEntry) :
    (childrenOf log).tokens =
      spentBeside node log + ((closings node log).map (·.tokens)).sum := by
  induction log using List.reverseRecOn with
  | nil => rfl
  | append_singleton log entry ih =>
    rw [childrenOf_append, apply_tokens _ node, ih, closings_append, spentBeside, spentBeside,
      List.map_append, List.map_append, List.sum_append, List.sum_append, List.map_singleton,
      List.sum_singleton, add_add_add_comm]

/-! ## The open child -/

/-- The last child of a list that never closed. -/
def lastOpen (children : List Linked) : Option RunId :=
  (children.reverse.find? fun child => child.2.isNone).map (·.1)

/-- The open child of a node is the last one of its list that never closed. -/
theorem openUnder_runId (l : ChildLedger) (node : NodeId) :
    (l.openUnder node).map (·.runId) = lastOpen (l.under node) := by
  rw [ChildLedger.openUnder, lastOpen, ChildLedger.under, ← List.map_reverse, ← List.filter_reverse,
    List.find?_map, List.find?_filter, Option.map_map]
  congr 2
  funext link
  cases hterminal : link.terminal <;> simp [ChildLink.linked, hterminal]

theorem lastOpen_concat_open (children : List Linked) (run : RunId) :
    lastOpen (children ++ [(run, none)]) = some run := by
  simp [lastOpen]

theorem lastOpen_mem {children : List Linked} {run : RunId} (h : lastOpen children = some run) :
    (run, none) ∈ children := by
  obtain ⟨child, hfind, rfl⟩ := Option.map_eq_some_iff.mp h
  have hmem := List.mem_reverse.mp (List.mem_of_find?_eq_some hfind)
  have hopen := List.find?_some hfind
  obtain ⟨run, terminal⟩ := child
  cases terminal with
  | none => exact hmem
  | some t => cases hopen

/-! ## Closing a link -/

def ChildLink.close (run : RunId) (terminal : TerminalState) (link : ChildLink) : ChildLink :=
  if link.runId = run then { link with terminal := some terminal } else link

/-- A child whose run closed. -/
def closeLinked (run : RunId) (terminal : TerminalState) (child : Linked) : Linked :=
  if child.1 = run then (child.1, some terminal) else child

/-- The runs a ledger links. -/
def ChildLedger.ids (l : ChildLedger) : List RunId := l.links.map (·.runId)

theorem ChildLink.linked_close (run : RunId) (terminal : TerminalState) (link : ChildLink) :
    (link.close run terminal).linked = closeLinked run terminal link.linked := by
  by_cases hrun : link.runId = run <;> simp [ChildLink.close, closeLinked, ChildLink.linked, hrun]

theorem ChildLink.close_runId (run : RunId) (terminal : TerminalState) (link : ChildLink) :
    (link.close run terminal).runId = link.runId := by
  by_cases hrun : link.runId = run <;> simp [ChildLink.close, hrun]

theorem ChildLink.close_node (run : RunId) (terminal : TerminalState) (link : ChildLink) :
    (link.close run terminal).node = link.node := by
  by_cases hrun : link.runId = run <;> simp [ChildLink.close, hrun]

/-- Among links of distinct runs, closing one changes that one alone. -/
theorem closeLink_eq {run : RunId} {terminal : TerminalState} {links : List ChildLink}
    (hids : (links.map (·.runId)).Nodup) (hmem : run ∈ links.map (·.runId)) :
    ChildLedger.closeLink run terminal links = some (links.map (ChildLink.close run terminal)) := by
  induction links with
  | nil => cases hmem
  | cons link older ih =>
    rw [List.map_cons, List.nodup_cons] at hids
    rw [ChildLedger.closeLink]
    by_cases hrun : link.runId = run
    · have hrest : older.map (ChildLink.close run terminal) = older := by
        rw [List.map_congr_left (g := id), List.map_id]
        intro other hother
        have hne : other.runId ≠ run := fun heq =>
          hids.1 (hrun.trans heq.symm ▸ List.mem_map.mpr ⟨other, hother, rfl⟩)
        simp [ChildLink.close, hne]
      rw [if_pos hrun, List.map_cons, hrest, ChildLink.close, if_pos hrun]
    · rw [List.map_cons] at hmem
      have hlater := (List.mem_cons.mp hmem).resolve_left (Ne.symm hrun)
      rw [if_neg hrun, ih hids.2 hlater, List.map_cons, ChildLink.close, if_neg hrun]
      rfl

/-- A child no list names leaves it as it is. -/
theorem map_closeLinked_of_notMem {run : RunId} {terminal : TerminalState} {children : List Linked}
    (h : run ∉ children.map (·.1)) : children.map (closeLinked run terminal) = children := by
  rw [List.map_congr_left (g := id), List.map_id]
  intro child hchild
  have hne : child.1 ≠ run := fun heq => h (heq ▸ List.mem_map.mpr ⟨child, hchild, rfl⟩)
  simp [closeLinked, hne]

theorem map_closeLinked_concat {run : RunId} {terminal : TerminalState} {children : List Linked}
    (h : run ∉ children.map (·.1)) :
    (children ++ [(run, none)]).map (closeLinked run terminal) =
      children ++ [(run, some terminal)] := by
  rw [List.map_append, map_closeLinked_of_notMem h]
  simp [closeLinked]

/-! ## What one event does -/

namespace ChildLedger

variable (l : ChildLedger) (node : NodeId)

theorem created_under (p : ChildRunCreatedPayload) (m : EventMeta) :
    (l.apply (.created p) m).under node =
      l.under node ++ if m.node = some node then [(p.childRunId, none)] else [] := by
  rw [apply, under, under, List.filter_append, List.map_append]
  congr 1
  by_cases hnode : m.node = some node <;> simp [hnode, ChildLink.linked]

theorem created_ids (p : ChildRunCreatedPayload) (m : EventMeta) :
    (l.apply (.created p) m).ids = l.ids ++ [p.childRunId] := by
  rw [apply, ids, ids, List.map_append]
  rfl

variable {l}

theorem finished_links {p : ChildRunFinishedPayload} {m : EventMeta} (hids : l.ids.Nodup)
    (hmem : p.childRunId ∈ l.ids) :
    (l.apply (.finished p) m).links =
      l.links.map (ChildLink.close p.childRunId p.terminalState) := by
  have hclose : closeLink p.childRunId p.terminalState l.links.reverse =
      some (l.links.reverse.map (ChildLink.close p.childRunId p.terminalState)) := by
    refine closeLink_eq ?_ ?_
    · rw [List.map_reverse]
      exact List.nodup_reverse.mpr hids
    · rw [List.map_reverse]
      exact List.mem_reverse.mpr hmem
  rw [apply]
  simp only [hclose]
  rw [← List.map_reverse, List.reverse_reverse]

theorem finished_under {p : ChildRunFinishedPayload} {m : EventMeta} (hids : l.ids.Nodup)
    (hmem : p.childRunId ∈ l.ids) :
    (l.apply (.finished p) m).under node =
      (l.under node).map (closeLinked p.childRunId p.terminalState) := by
  have hnode : ((fun link : ChildLink => decide (link.node = some node)) ∘
      ChildLink.close p.childRunId p.terminalState) = fun link => decide (link.node = some node) :=
    funext fun link => by rw [Function.comp, ChildLink.close_node]
  rw [under, finished_links hids hmem, List.filter_map, hnode, under, List.map_map, List.map_map]
  exact List.map_congr_left fun link _ => ChildLink.linked_close _ _ _

theorem finished_ids {p : ChildRunFinishedPayload} {m : EventMeta} (hids : l.ids.Nodup)
    (hmem : p.childRunId ∈ l.ids) : (l.apply (.finished p) m).ids = l.ids := by
  rw [ids, finished_links hids hmem, List.map_map]
  exact List.map_congr_left fun link _ => ChildLink.close_runId _ _ _

theorem under_subset_ids {child : Linked} (h : child ∈ l.under node) : child.1 ∈ l.ids := by
  obtain ⟨link, hlink, rfl⟩ := List.mem_map.mp h
  exact List.mem_map.mpr ⟨link, (List.mem_filter.mp hlink).1, rfl⟩

theorem under_ids_nodup (hids : l.ids.Nodup) : ((l.under node).map (·.1)).Nodup := by
  rw [under, List.map_map]
  exact hids.sublist (List.filter_sublist.map _)

end ChildLedger

end Yunta
