/-
  The invariants a run runs again settle, where the runs again between the first and the last
  leave the tree they found.

  1. **Trees** — `Trees` is what a record says of its node's attempts and the trees they ran on.
     Only the node's own start and terminals move it (`taken_trees`), and a log whose seqs rise
     names none past its end (`derive_below`).

  2. **One run again** — `Reran`: an invariant that starts on the run's tree and passes is the
     newest record of that tree, and leaves every other record as it was.

  3. **The iteration** — `Settling`: each invariant that ran again speaks for the run's tree.  The
     crux is that a later start on a tree another of them left behind makes that one stale, so
     `Steady` asks for one tree through the middle of the iteration.

  4. **Main result** — `reverification_settles`: each invariant runs again at most once and the run
     finishes.  Three invariants that rewrite files send each other round
     (`not_reverification_settles`).
-/
import Yunta.Run.Choices
import Yunta.Schedule.Progress

set_option linter.unusedVariables false

namespace Yunta

/-! ## What a record says of the trees -/

/-- Where a node's attempts started and closed, and on which trees. -/
structure Trees where
  lastTerminal : Option Nat := none
  lastStarted : Option Nat := none
  lastFinished : Option Nat := none
  lastFailed : Option Nat := none
  fromTree : Option TreeId := none
  leftTree : Option TreeId := none
  failedTree : Option TreeId := none

namespace Trees

/-- What one event of the node's own leaves of its trees. -/
def after (trees : Trees) (event : NodeEvent) (m : EventMeta) : Trees :=
  match event with
  | .started p => { trees with lastStarted := some m.seq, fromTree := p.fromTree }
  | .finished p =>
    { trees with lastTerminal := some m.seq, lastFinished := some m.seq, leftTree := p.tree }
  | .failed p =>
    { trees with lastTerminal := some m.seq, lastFailed := some m.seq, failedTree := p.tree }
  | _ => trees

/-- The positions a record names. -/
def seqs (trees : Trees) : List Nat :=
  trees.lastTerminal.toList ++ trees.lastStarted.toList ++ trees.lastFinished.toList ++
    trees.lastFailed.toList

/-- An event of the node's own names its own position, and the ones before it. -/
theorem mem_seqs_after {trees : Trees} {event : NodeEvent} {m : EventMeta} {seq : Nat}
    (h : seq ∈ (trees.after event m).seqs) : seq ∈ trees.seqs ∨ seq = m.seq := by
  cases event with
  | started p =>
    simp only [after, seqs, List.mem_append, Option.mem_toList] at h ⊢
    grind
  | finished p =>
    simp only [after, seqs, List.mem_append, Option.mem_toList] at h ⊢
    grind
  | failed p =>
    simp only [after, seqs, List.mem_append, Option.mem_toList] at h ⊢
    grind
  | _ => exact Or.inl h

/-- The trees a record names, and where, with its closes or without them. -/
def named (counts : Bool) (trees : Trees) : List (Nat × TreeId) :=
  let zip : Option Nat → Option TreeId → List (Nat × TreeId)
    | some seq, some tree => [(seq, tree)]
    | _, _ => []
  zip trees.lastStarted trees.fromTree ++
    (if counts then
      zip trees.lastFinished trees.leftTree ++ zip trees.lastFailed trees.failedTree
    else [])

theorem mem_named {counts : Bool} {trees : Trees} {entry : Nat × TreeId} :
    entry ∈ trees.named counts ↔
      (trees.lastStarted = some entry.1 ∧ trees.fromTree = some entry.2) ∨
        counts = true ∧
          ((trees.lastFinished = some entry.1 ∧ trees.leftTree = some entry.2) ∨
            trees.lastFailed = some entry.1 ∧ trees.failedTree = some entry.2) := by
  have hzip (seq : Option Nat) (tree : Option TreeId) :
      (entry ∈ (match seq, tree with
        | some seq, some tree => [(seq, tree)]
        | _, _ => ([] : List (Nat × TreeId)))) ↔ seq = some entry.1 ∧ tree = some entry.2 := by
    cases seq <;> cases tree <;> simp [Prod.ext_iff, eq_comm]
  unfold named
  rw [List.mem_append]
  refine or_congr (hzip _ _) ?_
  cases counts with
  | false => simp
  | true =>
    rw [if_pos rfl, List.mem_append]
    simp only [true_and]
    exact or_congr (hzip _ _) (hzip _ _)

theorem named_seq {counts : Bool} {trees : Trees} {entry : Nat × TreeId}
    (h : entry ∈ trees.named counts) : entry.1 ∈ trees.seqs := by
  simp only [seqs, List.mem_append, Option.mem_toList]
  rcases mem_named.mp h with ⟨hseq, -⟩ | ⟨-, ⟨hseq, -⟩ | ⟨hseq, -⟩⟩ <;> simp [hseq]

end Trees

namespace NodeRecord

/-- What a record says of the trees. -/
def trees (r : NodeRecord) : Trees :=
  ⟨r.lastTerminal, r.lastStarted, r.lastFinished, r.lastFailed, r.fromTree, r.leftTree,
    r.failedTree⟩

theorem ranOn_trees (r : NodeRecord) (model : Option ModelName) :
    (r.ranOn model).trees = r.trees ∧ (r.ranOn model).treeMoved = r.treeMoved := by
  unfold ranOn; split <;> [split; skip] <;> exact ⟨rfl, rfl⟩

/-- A session names no tree, and moves none. -/
theorem onSession_trees (r : NodeRecord) (event : SessionEvent) (m : EventMeta) :
    (r.onSession event m).trees = r.trees ∧ (r.onSession event m).treeMoved = r.treeMoved := by
  cases event with
  | opened p => exact ranOn_trees _ p.model
  | railSummary p =>
    simp only [onSession, heardModel]
    split
    · split
      · exact ranOn_trees _ p.model
      · exact ⟨rfl, rfl⟩
    · exact ⟨rfl, rfl⟩
  | message p =>
    simp only [onSession, message]
    split
    · exact ⟨rfl, rfl⟩
    · split <;> exact ⟨rfl, rfl⟩
    · exact ⟨rfl, rfl⟩
  | _ => exact ⟨rfl, rfl⟩

theorem ownReading_trees : OwnReading trees where
  waits _ _ := rfl
  beside _ := rfl
  stops r at_ asleep := by unfold closeWorking; split <;> rfl
  works r at_ := by unfold resume; split <;> rfl
  asks _ _ := rfl
  session r event m := (onSession_trees r event m).1

/-- **A node's own event moves its trees** where it opens or closes an attempt. -/
theorem onEvent_trees (r : NodeRecord) (event : NodeEvent) (m : EventMeta) (asleep : Suspensions) :
    (r.onEvent event m asleep).trees = r.trees.after event m := by
  have hend (tokens : TokenUsage) : ((({ r with lastEventAt := some m.at_ } : NodeRecord).endAttempt
      tokens m asleep).trees) = { r.trees with lastTerminal := some m.seq } := by
    simp only [endAttempt, closeWorking, trees]
    split <;> rfl
  cases event with
  | finished p =>
    exact congrArg (fun trees : Trees =>
      { trees with lastFinished := some m.seq, leftTree := p.tree }) (hend p.tokensUsed)
  | failed p =>
    exact congrArg (fun trees : Trees =>
      { trees with lastFailed := some m.seq, failedTree := p.tree }) (hend p.tokensUsed)
  | _ => rfl

end NodeRecord

/-- A wake records the tree it found, and no other. -/
theorem RunLedger.resumed_wokeOn (run : RunLedger) (p : RunResumedPayload) (m : EventMeta) :
    (run.resumed p m).wokeOn = p.tree.map fun tree => (m.seq, tree) := by
  unfold resumed
  dsimp only
  split <;> rfl

namespace RunState

/-- What the state holds of the trees a node ran on. -/
def trees (s : RunState) (node : NodeId) : Trees := ((s.nodes.get node).getD {}).trees

/-- Whether another node moved the tree under a node's latest attempt. -/
def moved (s : RunState) (node : NodeId) : Bool := ((s.nodes.get node).getD {}).treeMoved

/-- **Only a node's own start and terminals move what it says of the trees.** -/
theorem taken_trees {s : RunState} {event : StoredEvent} (hr : s.refuse event = .ok ())
    (node : NodeId) :
    (s.taken event).trees node =
      match event.payload with
      | some (.node e) =>
        if event.nodeId = some node then (s.trees node).after e event.meta_ else s.trees node
      | _ => s.trees node := by
  have hreading := taken_reading NodeRecord.ownReading_trees hr node
  simp only [NodeRecord.onEvent_trees] at hreading
  exact hreading

/-! ### No position past the end of the log -/

/-- Every position the state names of a tree comes before `seq`. -/
structure Below (s : RunState) (seq : Nat) : Prop where
  node : ∀ a, ∀ n ∈ (s.trees a).seqs, n < seq
  woke : ∀ woke ∈ s.run.wokeOn, woke.1 < seq

theorem Below.mono {s : RunState} {seq next : Nat} (h : s.Below seq) (hle : seq ≤ next) :
    s.Below next :=
  ⟨fun a n hn => Nat.lt_of_lt_of_le (h.node a n hn) hle,
    fun woke hwoke => Nat.lt_of_lt_of_le (h.woke woke hwoke) hle⟩

theorem Below.taken {s : RunState} {event : StoredEvent} {seq : Nat} (h : s.Below event.seq)
    (hr : s.refuse event = .ok ()) (hlt : event.seq < seq) : (s.taken event).Below seq where
  node a n hn := by
    have hold : ∀ n ∈ (s.trees a).seqs, n < seq := fun n hn => (h.node a n hn).trans hlt
    rw [taken_trees hr] at hn
    split at hn
    · split at hn
      · rcases Trees.mem_seqs_after hn with hn | rfl
        · exact hold n hn
        · exact hlt
      · exact hold n hn
    · exact hold n hn
  woke woke hwoke := by
    have hold : ∀ woke ∈ s.run.wokeOn, woke.1 < seq :=
      fun woke hwoke => (h.woke woke hwoke).trans hlt
    rw [taken_run_ledger hr] at hwoke
    split at hwoke
    · next e _ =>
      cases e with
      | resumed p =>
        have hwoke : woke ∈ (s.run.resumed p event.meta_).wokeOn := hwoke
        rw [RunLedger.resumed_wokeOn] at hwoke
        obtain ⟨tree, -, rfl⟩ := Option.map_eq_some_iff.mp hwoke
        exact hlt
      | _ => exact hold woke hwoke
    · exact hold woke hwoke

/-- **A log whose seqs rise names no position past its end.** -/
theorem derive_below {log : List StoredEvent} (h : Accepted log) (hrising : Rising log) {seq : Nat}
    (hend : ∀ event ∈ log, event.seq < seq) : (derive log).Below seq := by
  induction log using List.reverseRecOn generalizing seq with
  | nil =>
    refine ⟨?_, ?_⟩
    · intro a n hn
      cases hn
    · intro woke hwoke
      cases hwoke
  | append_singleton log event ih =>
    obtain ⟨hr, hderive⟩ := derive_snoc h
    rw [hderive]
    exact (ih (accepted_of_append h) hrising.front hrising.below).taken hr
      (hend event (List.mem_append_right _ List.mem_cons_self))

end RunState

/-! ## The newest tree -/

theorem maxBySeq_mem {α : Type} {entries : List (Nat × α)} {top : Nat × α}
    (h : maxBySeq entries = some top) : top ∈ entries := by
  induction entries with
  | nil => cases h
  | cons entry rest ih =>
    unfold maxBySeq at h
    cases hrest : maxBySeq rest with
    | none =>
      rw [hrest] at h
      cases h
      exact List.mem_cons_self
    | some best =>
      rw [hrest] at h
      dsimp only at h
      split at h
      · cases h
        exact List.mem_cons_self
      · exact List.mem_cons_of_mem _ (ih (hrest.trans h))

/-- An entry above all the others is the one found. -/
theorem maxBySeq_top {α : Type} {entries : List (Nat × α)} {top : Nat × α} (hmem : top ∈ entries)
    (habove : ∀ entry ∈ entries, entry = top ∨ entry.1 < top.1) :
    maxBySeq entries = some top := by
  induction entries with
  | nil => cases hmem
  | cons entry rest ih =>
    have hrest := fun other hother => habove other (List.mem_cons_of_mem entry hother)
    unfold maxBySeq
    by_cases hin : top ∈ rest
    · rw [ih hin hrest]
      have hle : ¬ top.1 < entry.1 := by
        rcases habove entry List.mem_cons_self with rfl | hlt <;> omega
      exact if_neg hle
    · obtain rfl : top = entry := (List.mem_cons.mp hmem).resolve_right hin
      cases hfound : maxBySeq rest with
      | none => rfl
      | some best =>
        have hbest := maxBySeq_mem hfound
        have hlt : best.1 < top.1 :=
          (hrest best hbest).resolve_left fun heq => hin (heq ▸ hbest)
        exact if_pos hlt

namespace RunState

theorem mem_treeRecords {s : RunState} {counts : NodeId → Bool} {entry : Nat × TreeId} :
    entry ∈ s.nodes.treeRecords counts ↔ ∃ a, entry ∈ (s.trees a).named (counts a) := by
  unfold NodeLedger.treeRecords
  rw [List.mem_flatMap]
  constructor
  · rintro ⟨⟨a, r⟩, hmem, hentry⟩
    have hget : s.nodes.get a = some r := Std.ExtTreeMap.mem_toList_iff_getElem?_eq_some.mp hmem
    refine ⟨a, ?_⟩
    rw [trees, hget]
    exact hentry
  · rintro ⟨a, hentry⟩
    rw [trees] at hentry
    cases hget : s.nodes.get a with
    | none =>
      rw [hget] at hentry
      have hnone : entry ∈ ({} : Trees).named (counts a) := hentry
      rw [Trees.mem_named] at hnone
      simp at hnone
    | some r =>
      rw [hget] at hentry
      exact ⟨(a, r), Std.ExtTreeMap.mem_toList_iff_getElem?_eq_some.mpr hget, hentry⟩

/-- A tree recorded after every other is the newest. -/
theorem newestTree_top {s : RunState} {counts : NodeId → Bool} {a : NodeId} {seq : Nat}
    {tree : TreeId} (hmem : (seq, tree) ∈ (s.trees a).named (counts a))
    (habove : ∀ b, ∀ entry ∈ (s.trees b).named (counts b), entry = (seq, tree) ∨ entry.1 < seq)
    (hwoke : ∀ woke ∈ s.run.wokeOn, woke.1 < seq) :
    s.newestTree counts = some (seq, tree) := by
  have hlatest : s.nodes.latestTree counts = some (seq, tree) := by
    refine maxBySeq_top (mem_treeRecords.mpr ⟨a, hmem⟩) ?_
    intro entry hentry
    obtain ⟨b, hb⟩ := mem_treeRecords.mp hentry
    exact habove b entry hb
  unfold newestTree
  rw [hlatest]
  cases hw : s.run.wokeOn with
  | none => rfl
  | some woke =>
    have hlt := hwoke woke hw
    exact if_neg (show ¬ seq ≤ woke.1 by omega)

end RunState

/-! ## One run again -/

/-- A close marks no attempt that neither runs nor closed after the closing one started. -/
theorem NodeLedger.get_movedBeside_of_apart {l : NodeLedger} {node a : NodeId} {left : TreeId}
    (hapart : ∀ writer started r, l.get node = some writer → writer.lastStarted = some started →
      l.get a = some r → overlapped started left r = false) :
    (l.movedBeside node left).get a = l.get a := by
  unfold movedBeside
  split
  · rfl
  next writer hwriter =>
  split
  · next from_ started _ hstarted =>
    split
    · rfl
    · rw [NodeLedger.get, Std.ExtTreeMap.getElem?_map]
      cases hr : l.get a with
      | none =>
        rw [show l.perNode[a]? = none from hr]
        rfl
      | some r =>
        have hfalse := hapart writer started r hwriter hstarted hr
        rw [show l.perNode[a]? = some r from hr, Option.map_some, hfalse]
        simp
  · rfl

/-- Whether an event is one a node writes while it works: it opens no attempt and closes none, it
    asks nobody, and it wakes nothing. -/
def worksOn (event : StoredEvent) : Bool :=
  match event.payload with
  | some (.node (.started _)) | some (.node (.finished _)) | some (.node (.failed _))
  | some (.node (.rerouted _)) => false
  | some (.node _) | some (.session _) | some (.artifacts _) | some (.findings _)
  | some (.run (.changesCounted _)) => true
  | _ => false

/-- An invariant's run again that succeeded: its attempt, the tree it found and the tree it left. -/
structure Rerun where
  node : NodeId
  attempt : Nat
  found : TreeId
  left : TreeId
  deriving DecidableEq

/-- What such a run writes, of its own node alone: its start on the tree it found, what it says
    while it works, and its finish on the tree it left. -/
structure Rerun.Writes (r : Rerun) (events : List StoredEvent) : Prop where
  shape : ∃ started opening working finished closing,
    events = started :: (working ++ [finished]) ∧
      started.nodeId = some r.node ∧ started.payload = some (.node (.started opening)) ∧
      opening.attempt = r.attempt ∧ opening.fromTree = some r.found ∧
      (∀ event ∈ working, worksOn event = true ∧ ∀ a, event.nodeId = some a → a = r.node) ∧
      finished.nodeId = some r.node ∧ finished.payload = some (.node (.finished closing)) ∧
      closing.tree = some r.left

/-- Two states that differ in one node's record, and in nothing else the scheduler reads. -/
structure ApartIn (node : NodeId) (s t : RunState) : Prop where
  get : ∀ a, a ≠ node → t.nodes.get a = s.nodes.get a
  gates : t.gates = s.gates
  woke : t.run.wokeOn = s.run.wokeOn
  baseline : t.run.baseline = s.run.baseline
  held : t.run.held = s.run.held
  broken : t.broken = s.broken

namespace ApartIn

variable {node a : NodeId} {s t : RunState}

theorem refl (s : RunState) : ApartIn node s s := ⟨fun _ _ => rfl, rfl, rfl, rfl, rfl, rfl⟩

theorem trans {u : RunState} (h : ApartIn node s t) (h' : ApartIn node t u) : ApartIn node s u where
  get a ha := (h'.get a ha).trans (h.get a ha)
  gates := h'.gates.trans h.gates
  woke := h'.woke.trans h.woke
  baseline := h'.baseline.trans h.baseline
  held := h'.held.trans h.held
  broken := h'.broken.trans h.broken

theorem state (h : ApartIn node s t) (ha : a ≠ node) : t.nodes.state a = s.nodes.state a := by
  rw [NodeLedger.state, h.get a ha, NodeLedger.state]

theorem trees (h : ApartIn node s t) (ha : a ≠ node) : t.trees a = s.trees a := by
  rw [RunState.trees, h.get a ha, RunState.trees]

theorem moved (h : ApartIn node s t) (ha : a ≠ node) : t.moved a = s.moved a := by
  rw [RunState.moved, h.get a ha, RunState.moved]

end ApartIn

/-- Two states that say the same of a node's attempt and of the trees it ran on. -/
structure Alike (node : NodeId) (s t : RunState) : Prop where
  state : t.nodes.state node = s.nodes.state node
  trees : t.trees node = s.trees node
  moved : t.moved node = s.moved node

namespace Alike

variable {node : NodeId} {s t : RunState}

theorem refl (s : RunState) : Alike node s s := ⟨rfl, rfl, rfl⟩

theorem trans {u : RunState} (h : Alike node s t) (h' : Alike node t u) : Alike node s u :=
  ⟨h'.state.trans h.state, h'.trees.trans h.trees, h'.moved.trans h.moved⟩

/-- A record kept, or rewritten by what moves neither its state nor its trees. -/
theorem of_get {r : NodeRecord}
    (hget : t.nodes.get node = s.nodes.get node ∨
      t.nodes.get node = some r ∧ r.state = ((s.nodes.get node).getD {}).state ∧
        r.trees = ((s.nodes.get node).getD {}).trees ∧
        r.treeMoved = ((s.nodes.get node).getD {}).treeMoved) : Alike node s t := by
  rcases hget with hget | ⟨hget, hstate, htrees, hmoved⟩
  · refine ⟨?_, ?_, ?_⟩
    · rw [NodeLedger.state, hget, NodeLedger.state]
    · rw [RunState.trees, hget, RunState.trees]
    · rw [RunState.moved, hget, RunState.moved]
  · refine ⟨?_, ?_, ?_⟩
    · rw [NodeLedger.state, hget, Option.bind_some, hstate, NodeLedger.state]
      cases s.nodes.get node <;> rfl
    · rw [RunState.trees, hget]
      exact htrees
    · rw [RunState.moved, hget]
      exact hmoved

end Alike

namespace RunState

/-- **What a node says while it works moves nothing the scheduler reads.** -/
theorem taken_works {s : RunState} {event : StoredEvent} {node : NodeId}
    (hr : s.refuse event = .ok ()) (hworks : worksOn event = true)
    (hown : ∀ a, event.nodeId = some a → a = node) :
    ApartIn node s (s.taken event) ∧ Alike node s (s.taken event) := by
  have hbroken := (taken_frame hr).2.2
  cases hp : event.payload with
  | none => simp [worksOn, hp] at hworks
  | some payload =>
    cases payload with
    | node e =>
      have hclose : NodeLedger.leftByClose e = none := by
        cases e <;> first | rfl | simp [worksOn, hp] at hworks
      have hget (a : NodeId) : (s.taken event).nodes.get a =
          if event.nodeId = some a then
            some (((s.nodes.get a).getD {}).onEvent e event.meta_ s.run.suspensions)
          else s.nodes.get a := by
        rw [taken_node hp]
        show (s.nodes.apply e event.meta_ s.run.suspensions).get a = _
        unfold NodeLedger.apply
        cases hm : event.nodeId with
        | none =>
          rw [show event.meta_.node = none from hm]
          rfl
        | some named =>
          rw [show event.meta_.node = some named from hm, hclose]
          refine (s.nodes.get_touch named a _).trans ?_
          by_cases heq : named = a
          · subst heq
            rw [if_pos rfl, if_pos rfl]
          · rw [if_neg heq, if_neg fun h => heq (Option.some.inj h)]
      refine ⟨⟨?_, ?_, ?_, ?_, ?_, hbroken⟩, ?_⟩
      · intro a ha
        rw [hget, if_neg fun h => ha (hown a h)]
      · rw [taken_node hp]; rfl
      · rw [taken_node hp]; rfl
      · rw [taken_node hp]; rfl
      · rw [taken_node hp]; rfl
      · refine .of_get (r := ((s.nodes.get node).getD {}).onEvent e event.meta_
          s.run.suspensions) ?_
        rw [hget]
        split
        · refine Or.inr ⟨rfl, ?_⟩
          cases e <;> first | exact ⟨rfl, rfl, rfl⟩ | simp [worksOn, hp] at hworks
        · exact Or.inl rfl
    | session e =>
      have hget (a : NodeId) : (s.taken event).nodes.get a =
          if event.nodeId = some a then some (((s.nodes.get a).getD {}).onSession e event.meta_)
          else s.nodes.get a := by
        rw [taken_session hr hp]
        exact s.nodes.applySession_get a
      refine ⟨⟨?_, ?_, ?_, ?_, ?_, hbroken⟩, ?_⟩
      · intro a ha
        rw [hget, if_neg fun h => ha (hown a h)]
      · rw [taken_session hr hp]; rfl
      · rw [taken_session hr hp]; rfl
      · rw [taken_session hr hp]; rfl
      · rw [taken_session hr hp]; rfl
      · refine .of_get (r := ((s.nodes.get node).getD {}).onSession e event.meta_) ?_
        rw [hget]
        split
        · exact Or.inr ⟨rfl, NodeRecord.onSession_state _ e _,
            (NodeRecord.onSession_trees _ e _).1, (NodeRecord.onSession_trees _ e _).2⟩
        · exact Or.inl rfl
    | run e =>
      cases e with
      | changesCounted p =>
        rw [taken_run hp]
        exact ⟨⟨fun _ _ => rfl, rfl, rfl, rfl, rfl, rfl⟩, ⟨rfl, rfl, rfl⟩⟩
      | _ => simp [worksOn, hp] at hworks
    | artifacts e =>
      rw [taken_artifact hp]
      exact ⟨⟨fun _ _ => rfl, rfl, rfl, rfl, rfl, rfl⟩, ⟨rfl, rfl, rfl⟩⟩
    | findings e =>
      rw [taken_finding hp]
      exact ⟨⟨fun _ _ => rfl, rfl, rfl, rfl, rfl, rfl⟩, ⟨rfl, rfl, rfl⟩⟩
    | _ => simp [worksOn, hp] at hworks

end RunState

/-- What a run again of an invariant leaves: its own record starts and closes, and every other
    stands. -/
structure Reran (r : Rerun) (started finished : Nat) (s t : RunState) : Prop where
  others : ApartIn r.node s t
  done : (t.nodes.state r.node).any NodeState.isFinished = true
  known : (t.nodes.get r.node).isSome = true
  unmoved : t.moved r.node = false
  lastTerminal : (t.trees r.node).lastTerminal = some finished
  lastStarted : (t.trees r.node).lastStarted = some started
  fromTree : (t.trees r.node).fromTree = some r.found
  lastFinished : (t.trees r.node).lastFinished = some finished
  leftTree : (t.trees r.node).leftTree = some r.left

namespace RunState

/-- A start of a node leaves the others, and opens its own attempt on the tree it found. -/
theorem taken_started {s : RunState} {event : StoredEvent} {p : NodeStartedPayload} {node : NodeId}
    (hr : s.refuse event = .ok ()) (hp : event.payload = some (.node (.started p)))
    (hnode : event.nodeId = some node) :
    ApartIn node s (s.taken event) ∧ (s.taken event).moved node = false ∧
      (s.taken event).trees node = (s.trees node).after (.started p) event.meta_ := by
  have hget (a : NodeId) : (s.taken event).nodes.get a =
      if node = a then some (((s.nodes.get node).getD {}).onEvent (.started p) event.meta_
        s.run.suspensions) else s.nodes.get a := by
    rw [taken_node hp]
    show (s.nodes.apply (.started p) event.meta_ s.run.suspensions).get a = _
    unfold NodeLedger.apply
    rw [show event.meta_.node = some node from hnode]
    exact s.nodes.get_touch node a _
  refine ⟨?_, ?_, ?_⟩
  · refine ⟨fun a ha => ?_, ?_, ?_, ?_, ?_, (taken_frame hr).2.2⟩
    · rw [hget, if_neg (Ne.symm ha)]
    · rw [taken_node hp]; rfl
    · rw [taken_node hp]; rfl
    · rw [taken_node hp]; rfl
    · rw [taken_node hp]; rfl
  · rw [moved, hget, if_pos rfl]
    rfl
  · rw [trees, hget, if_pos rfl, Option.getD_some, NodeRecord.onEvent_trees]
    rfl

/-- A finish of a node leaves the others, where none of them ran beside it. -/
theorem taken_finished {s : RunState} {event : StoredEvent} {p : NodeFinishedPayload}
    {node : NodeId} {started : Nat} (hr : s.refuse event = .ok ())
    (hp : event.payload = some (.node (.finished p))) (hnode : event.nodeId = some node)
    (hstarted : (s.trees node).lastStarted = some started)
    (halone : ∀ a, a ≠ node → s.isRunning a = false ∧
      ∀ closed ∈ (s.trees a).lastTerminal, closed < started) :
    ApartIn node s (s.taken event) ∧ (s.taken event).moved node = s.moved node ∧
      (s.taken event).trees node = (s.trees node).after (.finished p) event.meta_ ∧
      ((s.taken event).nodes.state node).any NodeState.isFinished = true ∧
      ((s.taken event).nodes.get node).isSome = true := by
  have hown : (s.taken event).nodes.get node =
      some (((s.nodes.get node).getD {}).onEvent (.finished p) event.meta_ s.run.suspensions) := by
    rw [taken_node hp]
    exact s.nodes.apply_get node hnode s.run.suspensions
  have hother (a : NodeId) (ha : a ≠ node) : (s.taken event).nodes.get a = s.nodes.get a := by
    rw [taken_node hp]
    show (s.nodes.apply (.finished p) event.meta_ s.run.suspensions).get a = _
    unfold NodeLedger.apply
    rw [show event.meta_.node = some node from hnode]
    have htouch : (s.nodes.touch node fun r =>
        r.onEvent (.finished p) event.meta_ s.run.suspensions).get a = s.nodes.get a := by
      rw [NodeLedger.get_touch, if_neg (Ne.symm ha)]
    rw [show NodeLedger.leftByClose (.finished p) = p.tree from rfl]
    cases p.tree with
    | none => exact htouch
    | some left =>
      refine (NodeLedger.get_movedBeside_of_apart ?_).trans htouch
      intro writer at_ r hwriter hat hr
      rw [htouch] at hr
      rw [NodeLedger.get_touch, if_pos rfl] at hwriter
      cases hwriter
      have hat' : (s.trees node).lastStarted = some at_ := by
        have hkept := NodeRecord.onEvent_trees ((s.nodes.get node).getD {}) (.finished p)
          event.meta_ s.run.suspensions
        exact (congrArg Trees.lastStarted hkept).symm.trans hat
      obtain rfl : started = at_ := Option.some.inj (hstarted.symm.trans hat')
      obtain ⟨hidle, hclosed⟩ := halone a ha
      rw [isRunning, NodeLedger.state, hr, Option.bind_some] at hidle
      rw [trees, hr] at hclosed
      unfold NodeLedger.overlapped
      rw [hidle, Bool.false_or]
      cases hlast : r.lastTerminal with
      | none => rfl
      | some closed =>
        have hlt : closed < started := hclosed closed hlast
        have hnot : ¬ started < closed := by omega
        rw [Option.any_some, decide_eq_false hnot, Bool.false_and]
  have hmoved (r : NodeRecord) (m : EventMeta) (asleep : Suspensions) :
      (r.onEvent (.finished p) m asleep).treeMoved = r.treeMoved := by
    simp only [NodeRecord.onEvent, NodeRecord.finished, NodeRecord.endAttempt,
      NodeRecord.closeWorking]
    split <;> rfl
  refine ⟨?_, ?_, ?_, ?_, ?_⟩
  · refine ⟨hother, ?_, ?_, ?_, ?_, (taken_frame hr).2.2⟩
    · rw [taken_node hp]; rfl
    · rw [taken_node hp]; rfl
    · rw [taken_node hp]; rfl
    · rw [taken_node hp]; rfl
  · rw [moved, hown]
    exact hmoved _ _ _
  · rw [trees, hown, Option.getD_some, NodeRecord.onEvent_trees]
    rfl
  · rw [NodeLedger.state, hown, Option.bind_some, NodeRecord.onEvent_state]
    rfl
  · rw [hown]
    rfl

end RunState

/-- **A run again, whole**: an invariant that starts on the tree it finds while nothing else runs,
    and finishes, leaves every other record as it was. -/
theorem Rerun.Writes.reran {r : Rerun} {events : List StoredEvent} {s t : RunState}
    (h : r.Writes events) (hsteps : RunSteps s events t)
    (hbelow : ∀ event ∈ events, s.Below event.seq) (hidle : ∀ a, s.isRunning a = false)
    (hrising : Rising events) :
    ∃ started finished, s.Below started ∧ started < finished ∧
      Reran r started finished s t := by
  obtain ⟨started, opening, working, finished, closing, rfl, hnode, hstart, -, hfound, hworking,
    hnode', hfinish, hleft⟩ := h.shape
  obtain ⟨s₁, hfirst, hrest⟩ := hsteps.cons_inv
  obtain ⟨hr, rfl⟩ := RunState.apply_ok_iff.mp hfirst
  obtain ⟨s₂, hmiddle, hlast⟩ := hrest.split
  obtain ⟨_, hclose, hend⟩ := hlast.cons_inv
  obtain rfl := hend.nil_inv
  obtain ⟨hr', rfl⟩ := RunState.apply_ok_iff.mp hclose
  obtain ⟨hothers, hmoved, htrees⟩ := RunState.taken_started hr hstart hnode
  -- what it says while it works moves nothing
  obtain ⟨hapart, hworks⟩ : ApartIn r.node (s.taken started) s₂ ∧
      Alike r.node (s.taken started) s₂ := by
    refine hmiddle.invariant_mem (P := fun u => ApartIn r.node (s.taken started) u ∧
      Alike r.node (s.taken started) u) ?_ ⟨.refl _, .refl _⟩
    intro u event u' hmem hu he
    obtain ⟨hre, rfl⟩ := RunState.apply_ok_iff.mp he
    obtain ⟨hworks, hown⟩ := hworking event hmem
    have hstep := RunState.taken_works hre hworks hown
    exact ⟨hu.1.trans hstep.1, hu.2.trans hstep.2⟩
  have hbefore := hothers.trans hapart
  have hmiddleTrees : s₂.trees r.node = (s.trees r.node).after (.started opening) started.meta_ :=
    hworks.trees.trans htrees
  have hseq := hbelow started List.mem_cons_self
  have hlt : started.seq < finished.seq :=
    List.rel_of_pairwise_cons hrising (List.mem_append_right _ List.mem_cons_self)
  have hstarted : (s₂.trees r.node).lastStarted = some started.seq := by
    rw [hmiddleTrees]
    rfl
  have halone : ∀ a, a ≠ r.node → s₂.isRunning a = false ∧
      ∀ closed ∈ (s₂.trees a).lastTerminal, closed < started.seq := by
    intro a ha
    constructor
    · rw [RunState.isRunning, hbefore.state ha]
      exact hidle a
    · intro closed hclosed
      rw [hbefore.trees ha] at hclosed
      refine hseq.node a closed ?_
      simp only [Trees.seqs, List.mem_append, Option.mem_toList]
      exact Or.inl (Or.inl (Or.inl hclosed))
  obtain ⟨hothers', hmoved', htrees', hdone, hknown⟩ :=
    RunState.taken_finished hr' hfinish hnode' hstarted halone
  rw [hmiddleTrees] at htrees'
  refine ⟨started.seq, finished.seq, hseq, hlt, ?_⟩
  exact
    { others := hbefore.trans hothers'
      done := hdone
      known := hknown
      unmoved := hmoved'.trans (hworks.moved.trans hmoved)
      lastTerminal := by rw [htrees']; rfl
      lastStarted := by rw [htrees']; rfl
      fromTree := by rw [htrees']; exact hfound
      lastFinished := by rw [htrees']; rfl
      leftTree := by rw [htrees']; exact hleft }

/-! ## Only invariants are left -/

namespace Board

variable {board : Board}

/-- What the run does next, its invariants aside. -/
def nextAside (board : Board) : Decision :=
  (gateStep board <|> waitingStep board <|> answeredStep board <|> orphanStep board <|>
    failureStep board).getD (readyBatch board)

/-- Whether a node is done with: it is finished, or it is a correction nothing asked for, and no
    answer of its is owed a terminal. -/
def isSettled (board : Board) (node : Node) : Bool :=
  !board.isUnfinished node && !board.state.answeredUnfinished node.id

/-- The state of a node done with: finished, or none, for a correction nothing asked for. -/
theorem state_of_settled {node : Node} (h : board.isSettled node = true) :
    (∃ outcome tokens, board.state.nodes.state node.id = some (.finished outcome tokens)) ∨
      board.state.nodes.state node.id = none ∧ board.rerouteOnly.contains node.id = true := by
  unfold isSettled isUnfinished at h
  simp only [Bool.and_eq_true, Bool.not_eq_true', Bool.and_eq_false_iff, Bool.not_eq_false'] at h
  rcases h.1 with hdone | ⟨honly, hnone⟩
  · left
    unfold finished at hdone
    cases hstate : board.state.nodes.state node.id with
    | none => simp [hstate] at hdone
    | some st =>
      cases st with
      | finished outcome tokens => exact ⟨outcome, tokens, rfl⟩
      | _ => simp [hstate, NodeState.isFinished] at hdone
  · right
    rw [NodeLedger.hasState, Option.isSome_eq_false_iff, Option.isNone_iff_eq_none] at hnone
    exact ⟨hnone, honly⟩

/-- **The run would finish, its invariants aside**, where every node of the mode is done with. -/
theorem nextAside_finish :
    board.nextAside = .finish ↔ ∀ node ∈ board.nodes, board.isSettled node = true := by
  constructor
  · intro h
    unfold nextAside at h
    obtain ⟨-, h⟩ := orElse_finish (gateStep_ne_finish board) h
    obtain ⟨-, h⟩ := orElse_finish (waitingStep_ne_finish board) h
    obtain ⟨hanswered, h⟩ := orElse_finish (answeredStep_ne_finish board) h
    obtain ⟨-, h⟩ := orElse_finish (orphanStep_ne_finish board) h
    have hready : readyBatch board = .finish := by
      cases hfailure : failureStep board with
      | none =>
        rw [hfailure] at h
        exact h
      | some d =>
        rw [hfailure] at h
        obtain rfl : d = .finish := h
        exact absurd hfailure (failureStep_ne_finish board)
    intro node hnode
    have howed : board.state.answeredUnfinished node.id = false := by
      simpa using List.find?_eq_none.mp (Option.map_eq_none_iff.mp hanswered) node hnode
    rw [isSettled, readyBatch_finish hready node hnode, howed]
    rfl
  · intro h
    have hidle : ∀ node ∈ board.nodes, board.state.isRunning node.id = false := by
      intro node hnode
      rcases state_of_settled (h node hnode) with ⟨outcome, tokens, hstate⟩ | ⟨hstate, -⟩ <;>
        simp [RunState.isRunning, hstate, NodeState.isRunning]
    have hgate : gateStep board = none := by
      rw [gateStep, Option.map_eq_none_iff, List.find?_eq_none]
      intro node hnode
      simp [hidle node hnode]
    have hwaiting : waitingStep board = none := by
      rw [waitingStep, List.findSome?_eq_none_iff]
      intro node hnode
      rcases state_of_settled (h node hnode) with ⟨outcome, tokens, hstate⟩ | ⟨hstate, -⟩ <;>
        rw [hstate]
    have hanswered : answeredStep board = none := by
      rw [answeredStep, Option.map_eq_none_iff, List.find?_eq_none]
      intro node hnode
      have hsettled := h node hnode
      simp only [isSettled, Bool.and_eq_true, Bool.not_eq_true'] at hsettled
      simp [hsettled.2]
    have horphan : orphanStep board = none := by
      have hnone : resumePolicies board.nodes board.state board.policy.onInterrupt = [] := by
        rw [resumePolicies, List.map_eq_nil_iff, List.filter_eq_nil_iff]
        intro node hnode
        simp [hidle node hnode]
      rw [orphanStep, hnone]
      rfl
    have hfailure : failureStep board = none := by
      rw [failureStep, List.findSome?_eq_none_iff]
      intro node hnode
      unfold failureOf
      rcases state_of_settled (h node hnode) with ⟨outcome, tokens, hstate⟩ | ⟨hstate, -⟩ <;>
        rw [hstate]
    have hfresh : ∀ node ∈ board.nodes, board.isFresh node = false := by
      intro node hnode
      rcases state_of_settled (h node hnode) with ⟨outcome, tokens, hstate⟩ | ⟨-, honly⟩
      · simp [isFresh, NodeLedger.hasState, hstate]
      · simp only [isFresh, honly, Bool.not_true, Bool.and_false, Bool.false_and]
    have hreadyGate : readyGate board = none := by
      rw [readyGate, Option.map_eq_none_iff, List.find?_eq_none]
      intro node hnode
      simp [hfresh node hnode]
    have hreadyNodes : readyNodes board = none := by
      have hempty : (board.nodes.filter fun node => !isGate node && board.isFresh node) = [] := by
        rw [List.filter_eq_nil_iff]
        intro node hnode
        simp [hfresh node hnode]
      rw [readyNodes, hempty]
      simp
    have hlast : nothingRunnable board = .finish := by
      have hnone : board.nodes.find? board.isUnfinished = none := by
        rw [List.find?_eq_none]
        intro node hnode
        have hsettled := h node hnode
        simp only [isSettled, Bool.and_eq_true, Bool.not_eq_true'] at hsettled
        simp [hsettled.1]
      rw [nothingRunnable, hnone]
    simp [nextAside, hgate, hwaiting, hanswered, horphan, hfailure, readyBatch, hreadyGate,
      hreadyNodes, hlast]

end Board

/-- Only invariants are left to run: the run would finish without them. -/
structure OnlyVerifiers (workflow : Workflow) (policy : Policy) (s : RunState) : Prop where
  taken : s.broken = none
  measured : owedBaseline s policy = none
  finishes : (Board.of workflow s policy).nextAside = .finish

section
variable {workflow : Workflow} {policy : Policy} {s t : RunState}

/-- **What the run does where only invariants are left**: the first stale one runs again, and the
    run finishes where none is. -/
theorem decide_onlyVerifiers (h : OnlyVerifiers workflow policy s) :
    decide workflow s policy = (reverifyStep (Board.of workflow s policy)).getD .finish := by
  have hnext : decide workflow s policy = (Board.of workflow s policy).next := by
    unfold decide before
    rw [h.taken, h.measured]
  rw [hnext, Board.next]
  have hfinishes := h.finishes
  unfold Board.nextAside at hfinishes
  obtain ⟨hgate, hfinishes⟩ := orElse_finish (gateStep_ne_finish _) hfinishes
  obtain ⟨hwaiting, hfinishes⟩ := orElse_finish (waitingStep_ne_finish _) hfinishes
  obtain ⟨hanswered, hfinishes⟩ := orElse_finish (answeredStep_ne_finish _) hfinishes
  obtain ⟨horphan, hfinishes⟩ := orElse_finish (orphanStep_ne_finish _) hfinishes
  cases hfailure : failureStep (Board.of workflow s policy) with
  | some d =>
    rw [hfailure] at hfinishes
    obtain rfl : d = .finish := hfinishes
    exact absurd hfailure (failureStep_ne_finish _)
  | none =>
    rw [hfailure] at hfinishes
    rw [hgate, hwaiting, hanswered, horphan]
    show (reverifyStep _).getD (readyBatch _) = _
    rw [show readyBatch (Board.of workflow s policy) = .finish from hfinishes]

/-- **An invariant that runs again leaves only invariants to run.** -/
theorem OnlyVerifiers.reran {r : Rerun} {started finished : Nat}
    (h : OnlyVerifiers workflow policy s) (hreran : Reran r started finished s t)
    (hbelow : s.Below finished) (hknown : (s.nodes.get r.node).isSome = true) :
    OnlyVerifiers workflow policy t := by
  refine ⟨hreran.others.broken.trans h.taken, ?_, ?_⟩
  · rw [← h.measured]
    unfold owedBaseline
    rw [hreran.others.baseline, hreran.others.held]
  rw [Board.nextAside_finish]
  intro node hnode
  have hsettled := Board.nextAside_finish.mp h.finishes node hnode
  unfold Board.isSettled at hsettled ⊢
  by_cases hid : node.id = r.node
  · -- its own record is finished, past every answer
    have hdone : (Board.of workflow t policy).isUnfinished node = false := by
      have hfinished : (Board.of workflow t policy).finished node.id = true := by
        rw [hid]
        exact hreran.done
      rw [Board.isUnfinished, hfinished]
      rfl
    have howed : t.answeredUnfinished node.id = false := by
      simp only [Bool.and_eq_true, Bool.not_eq_true'] at hsettled
      have hbefore : s.answeredUnfinished node.id = false := hsettled.2
      rw [hid] at hbefore ⊢
      obtain ⟨old, hold⟩ := Option.isSome_iff_exists.mp hknown
      obtain ⟨new, hnew⟩ := Option.isSome_iff_exists.mp hreran.known
      have hterminal : new.lastTerminal = some finished := by
        have hlast := hreran.lastTerminal
        rw [RunState.trees, hnew] at hlast
        exact hlast
      unfold RunState.answeredUnfinished at hbefore ⊢
      rw [hreran.others.gates, hnew]
      rw [hold] at hbefore
      dsimp only [Option.any_some] at hbefore ⊢
      cases hanswered : s.gates.answered r.node with
      | false => rfl
      | true =>
        rw [hanswered, Bool.true_and] at hbefore
        rw [Bool.true_and, hterminal]
        cases hat : ((s.gates.get r.node).bind (·.rounds.getLast?)).bind (·.answeredAt) with
        | none => rfl
        | some answered =>
          rw [hat] at hbefore
          cases hlast : old.lastTerminal with
          | none => simp [hlast] at hbefore
          | some terminal =>
            rw [hlast] at hbefore
            have hle := of_decide_eq_false hbefore
            have hlt : terminal < finished := by
              refine hbelow.node r.node terminal ?_
              rw [RunState.trees, hold]
              simp only [Trees.seqs, List.mem_append, Option.mem_toList]
              exact Or.inl (Or.inl (Or.inl hlast))
            exact decide_eq_false (by omega)
    rw [hdone, show (Board.of workflow t policy).state = t from rfl, howed]
    rfl
  · have hget := hreran.others.get node.id hid
    have hstate := hreran.others.state hid
    have hunfinished : (Board.of workflow t policy).isUnfinished node =
        (Board.of workflow s policy).isUnfinished node := by
      unfold Board.isUnfinished Board.finished NodeLedger.hasState
      rw [show (Board.of workflow t policy).state = t from rfl, hstate]
      rfl
    have howed : t.answeredUnfinished node.id = s.answeredUnfinished node.id := by
      unfold RunState.answeredUnfinished
      rw [hreran.others.gates, hget]
    rw [hunfinished, show (Board.of workflow t policy).state = t from rfl, howed]
    exact hsettled

end

/-! ## The iteration -/

/-- The invariant's pass `r` speaks for the run's tree, whose newest record is `latest`: nothing
    moved the tree under it, and it closed after that record or left the tree the record names. -/
structure Speaks (s : RunState) (latest : Nat × TreeId) (r : Rerun) : Prop where
  unmoved : s.moved r.node = false
  left : (s.trees r.node).leftTree = some r.left
  closed : ∃ finished, (s.trees r.node).lastFinished = some finished ∧
    (latest.1 < finished ∨ r.left = latest.2)

namespace Board

/-- An invariant is stale where its pass does not speak for the run's tree, and only there. -/
theorem isStale_iff (board : Board) (node : Node) :
    board.isStale node = true ↔
      (board.state.nodes.state node.id).any NodeState.isFinished = true ∧
        (board.state.moved node.id = true ∨ ∃ latest, board.latest = some latest ∧
          ∃ finished left, (board.state.trees node.id).lastFinished = some finished ∧
            finished < latest.1 ∧ (board.state.trees node.id).leftTree = some left ∧
            left ≠ latest.2) := by
  unfold isStale RunState.moved RunState.trees NodeLedger.state
  cases hget : board.state.nodes.get node.id with
  | none => simp
  | some record =>
    simp only [Option.any_some, Option.getD_some, Option.bind_some, Bool.and_eq_true,
      Bool.or_eq_true, NodeRecord.trees]
    refine and_congr_right fun _ => or_congr_right ?_
    cases board.latest <;> cases hfinished : record.lastFinished <;>
      cases hleft : record.leftTree <;> simp

theorem not_stale_of_speaks {board : Board} {latest : Nat × TreeId} {r : Rerun} {node : Node}
    (hlatest : board.latest = some latest) (h : Speaks board.state latest r)
    (hid : node.id = r.node) : board.isStale node = false := by
  rw [← Bool.not_eq_true, isStale_iff]
  rintro ⟨-, hmoved | ⟨newest, hnewest, finished, left, hfinished, hlt, hleft, hne⟩⟩
  · rw [hid, h.unmoved] at hmoved
    cases hmoved
  · obtain rfl : latest = newest := Option.some.inj (hlatest.symm.trans hnewest)
    obtain ⟨closed, hclosed, hspeaks⟩ := h.closed
    rw [hid, h.left] at hleft
    rw [hid, hclosed] at hfinished
    cases hfinished
    cases hleft
    rcases hspeaks with hafter | hsame
    · omega
    · exact hne hsame

theorem isRunning_of_anyRunning {board : Board} (h : board.anyRunning = false) (a : NodeId) :
    board.state.isRunning a = false := by
  unfold RunState.isRunning NodeLedger.state
  cases hget : board.state.nodes.get a with
  | none => rfl
  | some record =>
    have hmem : record ∈ board.state.nodes.values :=
      List.mem_map.mpr ⟨(a, record), Std.ExtTreeMap.mem_toList_iff_getElem?_eq_some.mpr hget, rfl⟩
    have hnot := List.any_eq_false.mp h record hmem
    simpa using hnot

end Board

/-- An invariant that runs again on the run's tree names that tree anew: no later record does. -/
theorem Reran.latest {workflow : Workflow} {policy : Policy} {r : Rerun} {started finished : Nat}
    {s t : RunState} (h : Reran r started finished s t) (hbelow : s.Below started)
    (hverifier : ∃ node ∈ (Board.of workflow s policy).verifiers, node.id = r.node) :
    (Board.of workflow t policy).latest = some (started, r.found) := by
  have hclose : (!(Board.of workflow t policy).verifiers.any fun node => node.id = r.node) =
      false := by
    obtain ⟨node, hmem, hid⟩ := hverifier
    rw [Bool.not_eq_false', List.any_eq_true]
    exact ⟨node, hmem, decide_eq_true hid⟩
  refine RunState.newestTree_top (a := r.node) ?_ ?_ ?_
  · rw [Trees.mem_named]
    exact Or.inl ⟨h.lastStarted, h.fromTree⟩
  · intro b entry hentry
    by_cases hb : b = r.node
    · subst hb
      rw [hclose, Trees.mem_named] at hentry
      rcases hentry with ⟨hseq, htree⟩ | ⟨hcounts, -⟩
      · exact Or.inl (Prod.ext (Option.some.inj (hseq.symm.trans h.lastStarted))
          (Option.some.inj (htree.symm.trans h.fromTree)))
      · cases hcounts
    · rw [show (Board.of workflow t policy).state.trees b = s.trees b from h.others.trees hb]
        at hentry
      exact Or.inr (hbelow.node b _ (Trees.named_seq hentry))
  · intro woke hwoke
    rw [show (Board.of workflow t policy).state.run.wokeOn = s.run.wokeOn from h.others.woke]
      at hwoke
    exact hbelow.woke woke hwoke

/-- What the scheduler does from a log on, each invariant it runs again passing on the tree the run
    holds: the tree the one before left, once there is one. -/
inductive Reruns (workflow : Workflow) (policy : Policy) (start : List StoredEvent) :
    List Rerun → List StoredEvent → Prop
  | start : Reruns workflow policy start [] start
  | again {done : List Rerun} {log events : List StoredEvent} {r : Rerun}
      (hdone : Reruns workflow policy start done log)
      (hasks : decide workflow (derive log) policy = .execute [(r.node, r.attempt)])
      (hfound : ∀ last ∈ done.getLast?, r.found = last.left)
      (hwrites : r.Writes events) (htaken : Accepted (log ++ events))
      (hrising : Rising (log ++ events)) : Reruns workflow policy start (done ++ [r]) (log ++ events)

/-- Every run again after the first that is followed by another leaves the tree it found. -/
def Steady (done : List Rerun) : Prop := ∀ r ∈ done.tail.dropLast, r.left = r.found

instance (done : List Rerun) : Decidable (Steady done) := inferInstanceAs (Decidable (∀ _ ∈ _, _))

theorem Steady.front {done : List Rerun} {r : Rerun} (h : Steady (done ++ [r])) : Steady done := by
  intro middle hmem
  refine h middle ?_
  cases done with
  | nil => cases hmem
  | cons first rest =>
    rw [List.cons_append, List.tail_cons, List.dropLast_concat]
    exact List.dropLast_subset rest hmem

section
variable {workflow : Workflow} {policy : Policy} {start log : List StoredEvent} {done : List Rerun}

/-- Where every run again after the first left the tree it found, they all left one tree. -/
theorem Reruns.one_tree (h : Reruns workflow policy start done log)
    (hkept : ∀ r ∈ done.tail, r.left = r.found) :
    ∀ last ∈ done.getLast?, ∀ r ∈ done, r.left = last.left := by
  induction h with
  | start => exact fun last hlast => by cases hlast
  | @again done log events r hdone _ hfound _ _ _ ih =>
    intro last hlast before hmem
    rw [List.getLast?_concat] at hlast
    obtain rfl : r = last := Option.some.inj hlast
    cases hfront : done.getLast? with
    | none =>
      rw [List.getLast?_eq_none_iff.mp hfront] at hmem
      rw [List.mem_singleton.mp hmem]
    | some previous =>
      have hne : done ≠ [] := by
        rintro rfl
        cases hfront
      rw [List.tail_append_of_ne_nil hne] at hkept
      have hsame : r.left = previous.left :=
        (hkept r (List.mem_append_right _ List.mem_cons_self)).trans (hfound previous hfront)
      rcases List.mem_append.mp hmem with hbefore | hown
      · have hfirst := ih (fun r hr => hkept r (List.mem_append_left _ hr)) previous hfront before
          hbefore
        exact hfirst.trans hsame.symm
      · rw [List.mem_singleton.mp hown]

/-- Where the iteration stands: only invariants are left, no two runs again are of one invariant,
    and each one's pass speaks for the run's tree. -/
structure Settling (workflow : Workflow) (policy : Policy) (done : List Rerun)
    (log : List StoredEvent) : Prop where
  taken : Accepted log
  rising : Rising log
  only : OnlyVerifiers workflow policy (derive log)
  once : (done.map (·.node)).Nodup
  verifiers : ∀ r ∈ done, ∃ node ∈ (Board.of workflow (derive log) policy).verifiers,
    node.id = r.node
  speak : done ≠ [] → ∃ latest, (Board.of workflow (derive log) policy).latest = some latest ∧
    ∀ r ∈ done, Speaks (derive log) latest r

/-- An invariant asked for is stale, so it did not run again yet. -/
theorem Settling.asks (h : Settling workflow policy done log) {d : Decision}
    (hasks : reverifyStep (Board.of workflow (derive log) policy) = some d) :
    (∀ a, (derive log).isRunning a = false) ∧
      ∃ node ∈ (Board.of workflow (derive log) policy).verifiers,
        d = .execute [(node.id, (Board.of workflow (derive log) policy).nextAttempt node.id)] ∧
        ((derive log).nodes.get node.id).isSome = true ∧ node.id ∉ done.map (·.node) := by
  unfold reverifyStep at hasks
  split at hasks
  · cases hasks
  next hidle =>
  obtain ⟨node, hfind, rfl⟩ := Option.map_eq_some_iff.mp hasks
  have hstale := List.find?_some hfind
  refine ⟨Board.isRunning_of_anyRunning (by simpa using hidle), node,
    List.mem_of_find?_eq_some hfind, rfl, ?_, ?_⟩
  · unfold Board.isStale at hstale
    obtain ⟨record, hget, -⟩ := (Option.any_eq_true ..).mp hstale
    exact Option.isSome_iff_exists.mpr ⟨record, hget⟩
  · intro hmem
    obtain ⟨r, hr, hid⟩ := List.mem_map.mp hmem
    obtain ⟨latest, hlatest, hspeak⟩ := h.speak (List.ne_nil_of_mem hr)
    rw [Board.not_stale_of_speaks hlatest (hspeak r hr) hid.symm] at hstale
    cases hstale

/-- **One run again keeps the iteration standing**, where those before it left one tree: the tree
    it starts on is that one, so its start makes none of them stale. -/
theorem Settling.again {events : List StoredEvent} {r : Rerun}
    (h : Settling workflow policy done log)
    (hasks : decide workflow (derive log) policy = .execute [(r.node, r.attempt)])
    (htree : ∀ before ∈ done, before.left = r.found) (hwrites : r.Writes events)
    (htaken : Accepted (log ++ events)) (hrising : Rising (log ++ events)) :
    Settling workflow policy (done ++ [r]) (log ++ events) := by
  have hreverify : reverifyStep (Board.of workflow (derive log) policy) =
      some (.execute [(r.node, r.attempt)]) := by
    rw [decide_onlyVerifiers h.only] at hasks
    cases hstep : reverifyStep (Board.of workflow (derive log) policy) with
    | none =>
      rw [hstep] at hasks
      cases hasks
    | some d =>
      rw [hstep] at hasks
      exact congrArg some hasks
  obtain ⟨hidle, node, hmem, hd, hknown, hnew⟩ := h.asks hreverify
  have hid : r.node = node.id := by
    have hpair := List.cons.inj (Decision.execute.inj hd)
    exact congrArg Prod.fst hpair.1
  rw [← hid] at hknown hnew
  have hsplit := List.pairwise_append.mp hrising
  have hsteps : RunSteps (derive log) events (derive (log ++ events)) := by
    obtain ⟨middle, hfront, hback⟩ := (RunState.steps_of_accepted htaken).split
    rw [RunState.derive_of_steps hfront]
    exact hback
  obtain ⟨started, finished, hbelow, hlt, hreran⟩ := hwrites.reran hsteps
    (fun event hevent => RunState.derive_below h.taken h.rising fun before hbefore =>
      hsplit.2.2 before hbefore event hevent) hidle hsplit.2.1
  have hlatest : (Board.of workflow (derive (log ++ events)) policy).latest =
      some (started, r.found) := hreran.latest hbelow ⟨node, hmem, hid.symm⟩
  refine ⟨htaken, hrising, h.only.reran hreran (hbelow.mono hlt.le) hknown, ?_, ?_, ?_⟩
  · rw [List.map_append, List.nodup_append]
    refine ⟨h.once, List.nodup_singleton _, ?_⟩
    rintro a ha b hb rfl
    rw [List.map_singleton, List.mem_singleton] at hb
    exact hnew (hb ▸ ha)
  · intro before hbefore
    rcases List.mem_append.mp hbefore with hbefore | hown
    · exact h.verifiers before hbefore
    · rw [List.mem_singleton.mp hown]
      exact ⟨node, hmem, hid.symm⟩
  · refine fun _ => ⟨_, hlatest, ?_⟩
    intro before hbefore
    rcases List.mem_append.mp hbefore with hbefore | hown
    · have hne : before.node ≠ r.node := by
        intro heq
        exact hnew (heq ▸ List.mem_map_of_mem hbefore)
      obtain ⟨_, -, hspeak⟩ := h.speak (List.ne_nil_of_mem hbefore)
      have hold := hspeak before hbefore
      obtain ⟨closed, hclosed, -⟩ := hold.closed
      refine ⟨?_, ?_, closed, ?_, Or.inr (htree before hbefore)⟩
      · rw [hreran.others.moved hne]
        exact hold.unmoved
      · rw [hreran.others.trees hne]
        exact hold.left
      · rw [hreran.others.trees hne]
        exact hclosed
    · rw [List.mem_singleton.mp hown]
      exact ⟨hreran.unmoved, hreran.leftTree, finished, hreran.lastFinished, Or.inl hlt⟩

/-- **Every steady iteration stands.** -/
theorem Reruns.settling (htaken : Accepted start) (hrising : Rising start)
    (honly : OnlyVerifiers workflow policy (derive start))
    (h : Reruns workflow policy start done log) (hsteady : Steady done) :
    Settling workflow policy done log := by
  induction h with
  | start =>
    refine ⟨htaken, hrising, honly, List.nodup_nil, ?_, fun hne => absurd rfl hne⟩
    intro r hr
    cases hr
  | @again done log events r hdone hasks hfound hwrites htaken' hrising' ih =>
    refine (ih hsteady.front).again hasks ?_ hwrites htaken' hrising'
    intro before hbefore
    cases hlast : done.getLast? with
    | none =>
      rw [List.getLast?_eq_none_iff.mp hlast] at hbefore
      cases hbefore
    | some last =>
      have hkept : ∀ middle ∈ done.tail, middle.left = middle.found := by
        intro middle hmem
        refine hsteady middle ?_
        rw [List.tail_append_of_ne_nil (List.ne_nil_of_mem hbefore), List.dropLast_concat]
        exact hmem
      rw [hdone.one_tree hkept last hlast before hbefore, hfound last hlast]

/-- **Reverification settles** where every run again between the first and the last leaves the tree
    it found: each invariant runs again at most once, and the next answer is the run's finish or an
    invariant that did not run again yet. -/
theorem reverification_settles (htaken : Accepted start) (hrising : Rising start)
    (honly : OnlyVerifiers workflow policy (derive start))
    (h : Reruns workflow policy start done log) (hsteady : Steady done) :
    (done.map (·.node)).Nodup ∧
      done.length ≤ (Board.of workflow (derive log) policy).verifiers.length ∧
      (decide workflow (derive log) policy = .finish ∨
        ∃ node ∈ (Board.of workflow (derive log) policy).verifiers, node.id ∉ done.map (·.node) ∧
          ∃ attempt, decide workflow (derive log) policy = .execute [(node.id, attempt)]) := by
  have hsettling := h.settling htaken hrising honly hsteady
  refine ⟨hsettling.once, ?_, ?_⟩
  · have hsub : done.map (·.node) ⊆
        (Board.of workflow (derive log) policy).verifiers.map (·.id) := by
      intro a ha
      obtain ⟨r, hr, rfl⟩ := List.mem_map.mp ha
      obtain ⟨node, hmem, hid⟩ := hsettling.verifiers r hr
      exact List.mem_map.mpr ⟨node, hmem, hid⟩
    have hle := (hsettling.once.subperm hsub).length_le
    rwa [List.length_map, List.length_map] at hle
  · rw [decide_onlyVerifiers hsettling.only]
    cases hstep : reverifyStep (Board.of workflow (derive log) policy) with
    | none => exact Or.inl rfl
    | some d =>
      obtain ⟨-, node, hmem, rfl, -, hnew⟩ := hsettling.asks hstep
      exact Or.inr ⟨node, hmem, hnew, _, rfl⟩

end

/-! ## Runs on a fixed workflow -/

/-- Three invariants over the whole tree, and the node that writes it. -/
def checkedWorkflow : Workflow :=
  ⟨[{ id := "fmt", kind := .bash, invariant := true },
    { id := "gen", kind := .bash, invariant := true },
    { id := "stamp", kind := .bash, invariant := true }, { id := "build", kind := .bash }]⟩

/-- One attempt of a node, from the tree it finds to the tree it leaves. -/
def passes (seq : Nat) (r : Rerun) : List StoredEvent :=
  [nodeEvent seq 0 r.node (.started ⟨r.attempt, some r.found, none⟩),
    nodeEvent (seq + 1) 0 r.node (.finished { tree := some r.left })]

theorem passes_writes (seq : Nat) (r : Rerun) : r.Writes (passes seq r) :=
  ⟨_, _, [], _, _, rfl, rfl, rfl, rfl, rfl, by simp, rfl, rfl, rfl⟩

/-- The invariants passed on `t`, and then `build` left `u`. -/
def builtLog : List StoredEvent :=
  passes 1 ⟨"fmt", 1, "t", "t"⟩ ++ passes 3 ⟨"gen", 1, "t", "t"⟩ ++
    passes 5 ⟨"stamp", 1, "t", "t"⟩ ++ passes 7 ⟨"build", 1, "t", "u"⟩

theorem builtLog_onlyVerifiers : OnlyVerifiers checkedWorkflow onePolicy (derive builtLog) :=
  ⟨by decide +kernel, by decide +kernel, by decide +kernel⟩

/-- One more pass, written after the log so far. -/
theorem Reruns.passes {done : List Rerun} {log : List StoredEvent}
    (h : Reruns checkedWorkflow onePolicy builtLog done log) (r : Rerun) (seq : Nat)
    (hasks : decide checkedWorkflow (derive log) onePolicy = .execute [(r.node, r.attempt)])
    (hfound : ∀ last ∈ done.getLast?, r.found = last.left)
    (htaken : Accepted (log ++ passes seq r)) (hrising : Rising (log ++ passes seq r)) :
    Reruns checkedWorkflow onePolicy builtLog (done ++ [r]) (log ++ Yunta.passes seq r) :=
  h.again hasks hfound (passes_writes seq r) htaken hrising

/-- `fmt` formats what `build` wrote, `gen` finds nothing to write, and `stamp` leaves its mark. -/
def formatted : List Rerun :=
  [⟨"fmt", 2, "u", "f"⟩, ⟨"gen", 2, "f", "f"⟩, ⟨"stamp", 2, "f", "s"⟩]

def formattedLog : List StoredEvent :=
  builtLog ++ passes 9 ⟨"fmt", 2, "u", "f"⟩ ++ passes 11 ⟨"gen", 2, "f", "f"⟩ ++
    passes 13 ⟨"stamp", 2, "f", "s"⟩

theorem formatted_reruns : Reruns checkedWorkflow onePolicy builtLog formatted formattedLog := by
  have hfmt := Reruns.start.passes ⟨"fmt", 2, "u", "f"⟩ 9 (by decide +kernel) (by decide)
    (by decide +kernel) (by decide +kernel)
  have hgen := hfmt.passes ⟨"gen", 2, "f", "f"⟩ 11 (by decide +kernel) (by decide)
    (by decide +kernel) (by decide +kernel)
  exact hgen.passes ⟨"stamp", 2, "f", "s"⟩ 13 (by decide +kernel) (by decide)
    (by decide +kernel) (by decide +kernel)

/-- Each of three invariants runs again once, and the run finishes. -/
theorem reverification_settles_formatted :
    (formatted.map (·.node)).Nodup ∧
      decide checkedWorkflow (derive formattedLog) onePolicy = .finish := by
  obtain ⟨honce, -, hnext⟩ := reverification_settles (by decide +kernel) (by decide +kernel)
    builtLog_onlyVerifiers formatted_reruns (by decide)
  refine ⟨honce, hnext.resolve_right ?_⟩
  rintro ⟨node, hmem, hnew, -⟩
  revert node
  decide

/-- `gen` rewrites what `fmt` formatted. -/
def unsteady : List Rerun :=
  [⟨"fmt", 2, "u", "f"⟩, ⟨"gen", 2, "f", "g"⟩, ⟨"stamp", 2, "g", "s"⟩, ⟨"fmt", 3, "s", "f"⟩]

/-- **Three invariants that rewrite the tree send each other round**: the start of the third records
    what the second rewrote, so the pass of the first speaks for another tree. -/
theorem not_reverification_settles :
    ¬ ∀ (workflow : Workflow) (policy : Policy) (start log : List StoredEvent) (done : List Rerun),
      Accepted start → Rising start → OnlyVerifiers workflow policy (derive start) →
        Reruns workflow policy start done log → (done.map (·.node)).Nodup := by
  intro h
  have hfmt := Reruns.start.passes ⟨"fmt", 2, "u", "f"⟩ 9 (by decide +kernel) (by decide)
    (by decide +kernel) (by decide +kernel)
  have hgen := hfmt.passes ⟨"gen", 2, "f", "g"⟩ 11 (by decide +kernel) (by decide)
    (by decide +kernel) (by decide +kernel)
  have hstamp := hgen.passes ⟨"stamp", 2, "g", "s"⟩ 13 (by decide +kernel) (by decide)
    (by decide +kernel) (by decide +kernel)
  have hround := hstamp.passes ⟨"fmt", 3, "s", "f"⟩ 15 (by decide +kernel) (by decide)
    (by decide +kernel) (by decide +kernel)
  have honce : (unsteady.map (·.node)).Nodup := h _ _ _ _ _ (by decide +kernel)
    (by decide +kernel) builtLog_onlyVerifiers hround
  exact absurd honce (by decide)

end Yunta
