/-
  What no session of a run writes, and the reason each path is protected.

  1. **Entries** — a protected glob with its `Protection`.  Instruction files are the one kind a
     person may grant.

  2. **The set** — `Protected` is its entries and what a person granted of them.  A set that does
     not build is no set, so the structure carries that it does; grants that do not build lift
     nothing.

  3. **Readers** — `reasonOf` says what holds a path, `reachedBy` what a glob might reach.
-/
import Mathlib.Data.List.MinMax
import Yunta.Lib.Text
import Yunta.Scope.Glob

set_option linter.unusedVariables false

namespace Yunta

/-! ## Entries -/

/-- What protects a path from every session of the run. -/
inductive Protection where
  | projectDeny | agentConfig | agentInstructions | approvedTest | gitRegister
  deriving DecidableEq

namespace Protection

/-- Whether a person may grant a path this reason protects. -/
def personMayGrant : Protection → Bool
  | agentInstructions => true
  | _ => false

/-- Whether a link at a path this reason protects carries the reason to what it resolves to. -/
def followsLinks : Protection → Bool
  | agentConfig | agentInstructions => true
  | _ => false

/-- The order the reasons are declared in: the first that holds a path names it. -/
def rank : Protection → Nat
  | projectDeny => 0
  | agentConfig => 1
  | agentInstructions => 2
  | approvedTest => 3
  | gitRegister => 4

end Protection

/-- A protected glob, and whether it is a path a lookup passes on the way to what a CLI loads. -/
structure Entry where
  reason : Protection
  glob : ScopeGlob
  onTheWay : Bool := false
  deriving DecidableEq

/-- An entry that holds one path a lookup passes as itself. -/
def Entry.passed (reason : Protection) (path : List String) : Entry :=
  ⟨reason, exact ("/".intercalate path), true⟩

/-! ## The set -/

/-- The protected globs, each with its reason, and the grants that lift some of them.  Both sets
    compiled from the entries build: the one a close reads, and the one a loop's close reads. -/
structure Protected (builds : List ScopeGlob → Bool) where
  entries : List Entry
  granted : List ScopeGlob := []
  every : builds (entries.map (·.glob)) = true
  atLoopClose :
    builds ((entries.filter fun e => e.reason ≠ .approvedTest).map (·.glob)) = true

variable {builds : List ScopeGlob → Bool}

/-- Both sets are built here. -/
def Protected.ofEntries (builds : List ScopeGlob → Bool) (entries : List Entry) :
    Option (Protected builds) :=
  if every : builds (entries.map (·.glob)) = true then
    if atLoopClose :
        builds ((entries.filter fun e => e.reason ≠ .approvedTest).map (·.glob)) = true then
      some { entries, every, atLoopClose }
    else none
  else none

/-- What every agent CLI loads from a checkout as its own configuration. -/
def agentConfigGlobs : List ScopeGlob := [".claude/**", ".mcp.json", ".codex/**", ".agents/skills/**"]

/-- The directories a lookup of a path under one of `trees` passes: each whole tree's root and every
    directory above it, once each. -/
def rootsOf (trees : List ScopeGlob) : List (List String) :=
  (trees.filterMap wholeTree).foldl (fun roots tree =>
    ((Text.names tree).inits.reverse.filter (· ≠ [])).foldl (fun roots root =>
      if roots.contains root then roots else roots ++ [root]) roots) []

/-- The entries every set has, with the project's denials and the approved tests. -/
def fixedEntries (project approved : List ScopeGlob) : List Entry :=
  (project.map fun glob => ⟨.projectDeny, glob, false⟩) ++
    (agentConfigGlobs.map fun glob => ⟨.agentConfig, glob, false⟩) ++
    (["**/AGENTS.md", "**/CLAUDE.md"].map fun glob => ⟨.agentInstructions, glob, false⟩) ++
    (approved.map fun glob => ⟨.approvedTest, glob, false⟩) ++
    ([".git", ".git/**"].map fun glob => ⟨.gitRegister, glob, false⟩) ++
    (rootsOf agentConfigGlobs).map (Entry.passed .agentConfig)

/-- `Protected::new`: the one union. -/
def Protected.new (builds : List ScopeGlob → Bool) (project approved : List ScopeGlob) :
    Option (Protected builds) :=
  Protected.ofEntries builds (fixedEntries project approved)

/-- The set of a project that denies `project`, where every set builds. -/
def Protected.denying (project : List ScopeGlob) : Protected fun _ => true :=
  ⟨fixedEntries project [], [], rfl, rfl⟩

/-- The set for one node or task, with the instruction files a person granted to it lifted. -/
def Protected.lifting (self : Protected builds) (granted : List ScopeGlob) : Protected builds :=
  { self with granted }

/-! ## Readers -/

namespace Protected

variable (self : Protected builds) (selects : ScopeGlob → String → Bool)

/-- Whether a grant lifts `path`.  Grants that do not build lift nothing. -/
def lifted (path : String) : Bool := builds self.granted && self.granted.any fun g => selects g path

/-- The strictest reason that reaches `glob`: one nobody may grant outranks the instruction
    files. -/
def reachedBy (glob : ScopeGlob) : Option Protection :=
  ((self.entries.filter fun entry => mightOverlap selects glob entry.glob).map (·.reason)).argmin
    Protection.personMayGrant

/-- The reason a path is protected, if it is.  A lifted path loses only its instruction reason. -/
def reasonOf (path : String) : Option Protection :=
  (((self.entries.filter fun entry => selects entry.glob path).map (·.reason)).filter
    fun reason => !(self.lifted selects path && reason.personMayGrant)).argmin Protection.rank

variable {self selects} {glob : ScopeGlob} {path : String}

/-- Nothing holds a path exactly when every entry that selects it is lifted. -/
theorem reasonOf_eq_none : self.reasonOf selects path = none ↔
    ∀ entry ∈ self.entries, selects entry.glob path = true →
      entry.reason.personMayGrant = true ∧ self.lifted selects path = true := by
  rw [reasonOf, List.argmin_eq_none, List.filter_eq_nil_iff]
  constructor
  · intro h entry hentry hselects
    have := h entry.reason (List.mem_map_of_mem (List.mem_filter.mpr ⟨hentry, hselects⟩))
    simpa [and_comm] using this
  · intro h reason hreason
    obtain ⟨entry, hentry, rfl⟩ := List.mem_map.mp hreason
    obtain ⟨hmem, hselects⟩ := List.mem_filter.mp hentry
    obtain ⟨hgrant, hlifted⟩ := h entry hmem hselects
    simp [hgrant, hlifted]

/-- Nothing reaches a glob exactly when it overlaps no entry. -/
theorem reachedBy_eq_none : self.reachedBy selects glob = none ↔
    ∀ entry ∈ self.entries, mightOverlap selects glob entry.glob = false := by
  rw [reachedBy, List.argmin_eq_none, List.map_eq_nil_iff, List.filter_eq_nil_iff]
  simp

/-- A glob is reached by a reason nobody may grant exactly when it overlaps such an entry. -/
theorem reachedBy_refuses :
    (∃ reason, self.reachedBy selects glob = some reason ∧ reason.personMayGrant = false) ↔
      ∃ entry ∈ self.entries, mightOverlap selects glob entry.glob = true ∧
        entry.reason.personMayGrant = false := by
  constructor
  · rintro ⟨reason, hreason, hgrant⟩
    obtain ⟨entry, hentry, rfl⟩ := List.mem_map.mp (List.argmin_mem hreason)
    obtain ⟨hmem, hoverlap⟩ := List.mem_filter.mp hentry
    exact ⟨entry, hmem, hoverlap, hgrant⟩
  · rintro ⟨entry, hmem, hoverlap, hgrant⟩
    have hentry : entry.reason ∈ (self.entries.filter fun entry =>
        mightOverlap selects glob entry.glob).map (·.reason) :=
      List.mem_map_of_mem (List.mem_filter.mpr ⟨hmem, hoverlap⟩)
    cases hreason : self.reachedBy selects glob with
    | none =>
      rw [reachedBy_eq_none.mp hreason entry hmem] at hoverlap
      cases hoverlap
    | some reason =>
      have hle := List.le_of_mem_argmin hentry hreason
      refine ⟨reason, rfl, ?_⟩
      rw [hgrant] at hle
      exact Bool.eq_false_of_le_false hle

end Protected

end Yunta
