/-
  When what a node did in the run's own tree becomes a commit.

  1. **The machine** — nodes that share the tree of a run with a worktree of its own start, write
     and close in any order.  A start commits what it finds and a close commits the tree, each under
     the landing lock, unless another sharer is Running in the log; a close appends its terminal
     only after it let the lock go, so a node may be Running and have decided already.

  2. **What a close may leave** — `owed`: while the tree holds what the branch does not, some
     Running sharer has not decided yet.

  3. **Runs** — in every run whose closes leave the tree to such a sharer, a run no sharer works in
     has it committed (`head_eq_tree`).  Two closes that each leave it to the other commit nothing
     (`not_head_eq_tree`).
-/
import Yunta.Lib.Machine
import Yunta.Replay.Lifecycle
import Yunta.Workflow.Nodes

set_option linter.unusedVariables false

namespace Yunta

/-! ## Who shares the tree -/

/-- Whether the workflow declares `node` to work in the run's own tree: it is not audited, which is
    what gives a node a checkout of its own, and it is not a gate. -/
def declaredToShare (node : Node) : Bool := !node.audits && !isGate node

/-- The nodes that work in the run's own tree, as the workflow declares them. -/
def treeSharers (workflow : Workflow) : List Node := workflow.iterNodes.filter declaredToShare

/-- Whether a node other than `node` is still working in the run's tree, as the log stands. -/
def workingBeside (workflow : Workflow) (state : RunState) (node : NodeId) : Bool :=
  (treeSharers workflow).any fun other => other.id != node && state.isRunning other.id

/-- Whether an id is one of theirs. -/
def sharesTheTree (workflow : Workflow) (node : NodeId) : Bool :=
  (treeSharers workflow).any fun sharer => sharer.id == node

namespace SharedTree

/-- A run's log as replay derives it, its tree, the content of its branch's last commit, and the
    nodes whose close decided and whose terminal is still to be appended. -/
structure Shared (τ : Type) where
  run : RunState
  tree : τ
  head : τ
  closing : List NodeId := []

inductive Act (τ : Type) where
  /-- Under the landing lock: finds what the tree holds, and appends the start. -/
  | start (node : NodeId) (seq : Nat) (at_ : Int) (p : NodeStartedPayload)
  | write (node : NodeId) (tree : τ)
  /-- Under the landing lock: commits the tree, or leaves it to who still works there. -/
  | close (node : NodeId)
  | terminal (node : NodeId) (seq : Nat) (at_ : Int) (e : NodeEvent)

section
variable {τ : Type} (workflow : Workflow) (putBack : NodeId → τ → τ → τ)

/-- `found`: what the tree holds is committed as `node` starts from it, unless another node works
    there. -/
def found (s : Shared τ) (node : NodeId) : Shared τ :=
  if workingBeside workflow s.run node then s else { s with head := s.tree }

/-- `at_close`: what the run refuses is put back as the branch has it and the rest is committed,
    unless another node works in the tree. -/
def atClose (s : Shared τ) (node : NodeId) : Shared τ :=
  if workingBeside workflow s.run node then s
  else
    let kept := putBack node s.tree s.head
    { s with tree := kept, head := kept }

/-- Whether `node` works: it is Running in the log, and its close has not decided. -/
def Shared.works (s : Shared τ) (node : NodeId) : Bool :=
  s.run.isRunning node && !s.closing.contains node

def step (s : Shared τ) : Act τ → Option (Shared τ)
  | .start node seq at_ p =>
    if sharesTheTree workflow node && !s.run.isRunning node then
      let s := found workflow s node
      some { s with run := s.run.append (nodeEvent seq at_ node (.started p)) }
    else none
  | .write node tree =>
    if sharesTheTree workflow node && s.works node then some { s with tree := tree } else none
  | .close node =>
    if sharesTheTree workflow node && s.works node then
      let s := atClose workflow putBack s node
      some { s with closing := node :: s.closing }
    else none
  | .terminal node seq at_ e =>
    if s.closing.contains node && e.isTerminal then
      some { s with
        run := s.run.append (nodeEvent seq at_ node e)
        closing := s.closing.filter (· != node) }
    else none

/-- A run just opened: its tree is its base commit's, and nobody closes. -/
def opened (run : RunState) (tree : τ) : Shared τ := { run := run, tree := tree, head := tree }

/-! ## What a close may leave -/

/-- Some sharer other than `node` is Running and has not decided yet. -/
def worksBeside (s : Shared τ) (node : NodeId) : Bool :=
  (treeSharers workflow).any fun other => other.id != node && s.works other.id

/-- A close that leaves the tree to who works beside it leaves nothing there, or leaves it to a node
    whose own close is still to decide. -/
def LeavesToOpen (s : Shared τ) : Act τ → Prop
  | .close node =>
    workingBeside workflow s.run node = true →
      s.head = s.tree ∨ worksBeside workflow s node = true
  | _ => True

instance [DecidableEq τ] (s : Shared τ) : ∀ act : Act τ, Decidable (LeavesToOpen workflow s act)
  | .close node => inferInstanceAs (Decidable (_ = true → _ ∨ _))
  | .start .. | .write .. | .terminal .. => .isTrue trivial

/-- What the tree holds beside the branch is some working sharer's to commit. -/
structure Owed (s : Shared τ) : Prop where
  owed : s.head = s.tree ∨ ∃ other ∈ treeSharers workflow, s.works other.id = true
  closing : ∀ node ∈ s.closing, s.run.isRunning node = true

variable {workflow putBack}

theorem shares_iff {node : NodeId} :
    sharesTheTree workflow node = true ↔ ∃ sharer ∈ treeSharers workflow, sharer.id = node := by
  simp [sharesTheTree]

theorem works_iff {s : Shared τ} {node : NodeId} :
    s.works node = true ↔ s.run.isRunning node = true ∧ node ∉ s.closing := by
  simp [Shared.works]

/-- A node that neither starts nor closes works as it did. -/
theorem works_append {s : Shared τ} {closing : List NodeId} {node other : NodeId} {seq : Nat}
    {at_ : Int} {e : NodeEvent} (hne : other ≠ node) (hclosing : other ∈ closing → other ∈ s.closing)
    (h : s.works other = true) :
    Shared.works { s with
      run := s.run.append (nodeEvent seq at_ node e), closing := closing } other = true := by
  obtain ⟨hrunning, hopen⟩ := works_iff.mp h
  refine works_iff.mpr ⟨?_, fun hmem => hopen (hclosing hmem)⟩
  rw [RunState.append_other_running s.run seq at_ node e hne]
  exact hrunning

/-- **A start keeps it**: the node that starts works. -/
theorem Owed.start {s : Shared τ} (h : Owed workflow s) {node : NodeId} {seq : Nat} {at_ : Int}
    {p : NodeStartedPayload} (hshares : sharesTheTree workflow node = true)
    (hidle : s.run.isRunning node = false) :
    Owed workflow { found workflow s node with
      run := (found workflow s node).run.append (nodeEvent seq at_ node (.started p)) } := by
  have hrun : (found workflow s node).run = s.run := by
    unfold found
    split <;> rfl
  have hclosing : (found workflow s node).closing = s.closing := by
    unfold found
    split <;> rfl
  obtain ⟨n, hn, rfl⟩ := shares_iff.mp hshares
  have hopen : n.id ∉ s.closing := by
    intro hmem
    rw [h.closing _ hmem] at hidle
    cases hidle
  have hstarted : (s.run.append (nodeEvent seq at_ n.id (.started p))).isRunning n.id = true := by
    rw [RunState.isRunning, RunState.append_started]
    rfl
  refine ⟨.inr ⟨n, hn, works_iff.mpr ⟨?_, ?_⟩⟩, ?_⟩
  · show ((found workflow s n.id).run.append _).isRunning n.id = true
    rw [hrun]
    exact hstarted
  · show n.id ∉ (found workflow s n.id).closing
    rw [hclosing]
    exact hopen
  · intro other hother
    show ((found workflow s n.id).run.append _).isRunning other = true
    rw [hrun]
    have hmem : other ∈ s.closing := hclosing ▸ hother
    by_cases hne : other = n.id
    · exact absurd (hne ▸ hmem) hopen
    · rw [RunState.append_other_running s.run seq at_ n.id _ hne]
      exact h.closing other hmem

/-- **A close that leaves the tree to an open sharer keeps it**, and one that commits leaves
    nothing. -/
theorem Owed.close {s : Shared τ} (h : Owed workflow s) {node : NodeId}
    (hworks : s.works node = true) (hleaves : LeavesToOpen workflow s (.close node)) :
    Owed workflow { atClose workflow putBack s node with
      closing := node :: (atClose workflow putBack s node).closing } := by
  by_cases hbeside : workingBeside workflow s.run node = true
  · have hat : atClose workflow putBack s node = s := if_pos hbeside
    rw [hat]
    constructor
    · rcases hleaves hbeside with heq | hworks
      · exact .inl heq
      · obtain ⟨other, hother, hboth⟩ := List.any_eq_true.mp hworks
        obtain ⟨hne, hother'⟩ := Bool.and_eq_true_iff.mp hboth
        obtain ⟨hrunning, hopen⟩ := works_iff.mp hother'
        refine .inr ⟨other, hother, works_iff.mpr ⟨hrunning, ?_⟩⟩
        intro hmem
        rcases List.mem_cons.mp hmem with heq | hmem
        · simp [heq] at hne
        · exact hopen hmem
    · intro other hmem
      rcases List.mem_cons.mp hmem with rfl | hmem
      · exact (works_iff.mp hworks).1
      · exact h.closing other hmem
  · have hat : atClose workflow putBack s node =
        { s with tree := putBack node s.tree s.head, head := putBack node s.tree s.head } :=
      if_neg hbeside
    rw [hat]
    refine ⟨.inl rfl, ?_⟩
    intro other hmem
    rcases List.mem_cons.mp hmem with rfl | hmem
    · exact (works_iff.mp hworks).1
    · exact h.closing other hmem

/-- **A terminal keeps it**: who owes the commit has not decided, and this node has. -/
theorem Owed.terminal {s : Shared τ} (h : Owed workflow s) {node : NodeId} {seq : Nat} {at_ : Int}
    {e : NodeEvent} (hclosing : node ∈ s.closing) :
    Owed workflow { s with
      run := s.run.append (nodeEvent seq at_ node e)
      closing := s.closing.filter (· != node) } := by
  constructor
  · rcases h.owed with heq | ⟨other, hother, hworks⟩
    · exact .inl heq
    · refine .inr ⟨other, hother, works_append ?_ ?_ hworks⟩
      · intro heq
        exact (works_iff.mp hworks).2 (heq ▸ hclosing)
      · intro hmem
        exact (List.mem_filter.mp hmem).1
  · intro other hother
    obtain ⟨hmem, hne⟩ := List.mem_filter.mp hother
    show (s.run.append _).isRunning other = true
    rw [RunState.append_other_running s.run seq at_ node e (by simpa using hne)]
    exact h.closing other hmem

theorem Owed.step {s s' : Shared τ} {act : Act τ} (h : Owed workflow s)
    (hleaves : LeavesToOpen workflow s act) (hstep : step workflow putBack s act = some s') :
    Owed workflow s' := by
  cases act with
  | start node seq at_ p =>
    simp only [SharedTree.step, Option.ite_none_right_eq_some, Bool.and_eq_true,
      Bool.not_eq_true', Option.some.injEq] at hstep
    obtain ⟨⟨hshares, hidle⟩, rfl⟩ := hstep
    exact h.start hshares hidle
  | write node tree =>
    simp only [SharedTree.step, Option.ite_none_right_eq_some, Bool.and_eq_true,
      Option.some.injEq] at hstep
    obtain ⟨⟨hshares, hworks⟩, rfl⟩ := hstep
    -- whoever writes works, and owes the commit of what it wrote
    obtain ⟨sharer, hsharer, rfl⟩ := shares_iff.mp hshares
    exact ⟨.inr ⟨sharer, hsharer, hworks⟩, h.closing⟩
  | close node =>
    simp only [SharedTree.step, Option.ite_none_right_eq_some, Bool.and_eq_true,
      Option.some.injEq] at hstep
    obtain ⟨⟨hshares, hworks⟩, rfl⟩ := hstep
    exact h.close hworks hleaves
  | terminal node seq at_ e =>
    simp only [SharedTree.step, Option.ite_none_right_eq_some, Bool.and_eq_true,
      List.contains_iff_mem, Option.some.injEq] at hstep
    obtain ⟨⟨hclosing, -⟩, rfl⟩ := hstep
    exact h.terminal hclosing

/-! ## Runs -/

/-- **A run no sharer works in has its tree committed**, in every run whose closes leave the tree
    only to a sharer still to decide. -/
theorem head_eq_tree (workflow : Workflow) (putBack : NodeId → τ → τ → τ) (run : RunState)
    (tree : τ) (s : Shared τ)
    (h : Machine.Reached (SharedTree.step workflow putBack) (LeavesToOpen workflow)
      (opened run tree) s)
    (hidle : ∀ node ∈ treeSharers workflow, s.run.isRunning node.id = false) :
    s.head = s.tree := by
  have howed : Owed workflow s := by
    refine h.invariant ⟨.inl rfl, ?_⟩ fun s act s' hs hleaves hstep => hs.step hleaves hstep
    intro node hmem
    cases hmem
  rcases howed.owed with heq | ⟨other, hother, hworks⟩
  · exact heq
  · have hrunning := (works_iff.mp hworks).1
    rw [hidle other hother] at hrunning
    cases hrunning

end

/-- Two nodes that work in the run's tree, waiting on nothing. -/
def pair : Workflow := ⟨[{ id := "a", kind := .bash }, { id := "b", kind := .prompt }]⟩

/-- Nothing a close would put back. -/
def keepAll (node : NodeId) (tree head : List String) : List String := tree

/-- Both nodes start and write. -/
def bothWrite : List (Act (List String)) :=
  [.start "a" 1 0 ⟨1, none, none⟩, .start "b" 2 0 ⟨1, none, none⟩, .write "a" ["x"],
    .write "b" ["x", "y"]]

/-- The first to close leaves the tree to the other, which commits it. -/
def closedApart : List (Act (List String)) :=
  bothWrite ++ [.close "a", .terminal "a" 3 0 (.finished {}), .close "b",
    .terminal "b" 4 0 (.finished {})]

/-- Each closes while the other is still Running in the log. -/
def closedTogether : List (Act (List String)) :=
  bothWrite ++ [.close "a", .close "b", .terminal "a" 3 0 (.finished {}),
    .terminal "b" 4 0 (.finished {})]

/-- Whether no sharer is Running. -/
def Shared.idle {τ : Type} (workflow : Workflow) (s : Shared τ) : Bool :=
  (treeSharers workflow).all fun node => !s.run.isRunning node.id

theorem Shared.idle_iff {τ : Type} {workflow : Workflow} {s : Shared τ} :
    s.idle workflow = true ↔ ∀ node ∈ treeSharers workflow, s.run.isRunning node.id = false := by
  simp [Shared.idle]

theorem head_eq_tree_apart :
    ∃ s, Machine.Reached (SharedTree.step pair keepAll) (LeavesToOpen pair) (opened {} []) s ∧
      s.head = s.tree ∧ s.tree = ["x", "y"] := by
  obtain ⟨s, hreached, hs⟩ := Machine.exists_reached (SharedTree.step pair keepAll)
    (LeavesToOpen pair) (opened {} []) closedApart
    (fun s => s.idle pair && s.tree == ["x", "y"]) (by decide)
  obtain ⟨hidle, htree⟩ := Bool.and_eq_true_iff.mp hs
  exact ⟨s, hreached, head_eq_tree pair keepAll {} [] s hreached (Shared.idle_iff.mp hidle),
    eq_of_beq htree⟩

/-- **Two closes that each leave the tree to the other commit nothing**: both nodes are finished,
    and the branch holds none of their work. -/
theorem not_head_eq_tree :
    ¬ ∀ (workflow : Workflow) (putBack : NodeId → List String → List String → List String)
        (run : RunState) (tree : List String) (s : Shared (List String)),
      Machine.Reached (SharedTree.step workflow putBack) Machine.Free (opened run tree) s →
      (∀ node ∈ treeSharers workflow, s.run.isRunning node.id = false) → s.head = s.tree := by
  intro h
  obtain ⟨s, hreached, hs⟩ := Machine.exists_reached (SharedTree.step pair keepAll)
    Machine.Free (opened {} []) closedTogether
    (fun s => s.idle pair && s.head != s.tree) (by decide)
  obtain ⟨hidle, hne⟩ := Bool.and_eq_true_iff.mp hs
  exact absurd (h pair keepAll {} [] s hreached (Shared.idle_iff.mp hidle)) (by simpa using hne)

end SharedTree

end Yunta
