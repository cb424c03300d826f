/-
  The keys a workflow reads, and the one a misspelled key most likely meant.

  1. **Keys** — at a workflow's top, in every node, in each kind of node, and in the entries of its
     lists; and the node keys it reads no longer.

  2. **Slips** — `nearest` is the candidate within two edits of what was typed and closer than every
     other; how many edits lie between two names is the caller's to say,
     and `levenshtein` counts them.
-/
import Yunta.Lib.Str

set_option linter.unusedVariables false

namespace Yunta.WorkflowAudit

/-! ## The keys -/

/-- `WORKFLOW_KEYS`: what a workflow accepts at its top. -/
def workflowKeys : List String :=
  ["name", "description", "modes", "inputs", "node_defaults", "nodes", "yunta_schema", "on_finish"]

/-- `NODE_KEYS`: what every node accepts at its own level. -/
def nodeLevelKeys : List String :=
  ["id", "depends_on", "scope", "runner", "runners", "agent", "artifacts", "hooks", "on_failure",
    "on_interrupt", "description", "permissions", "network", "context", "skills", "invariant",
    "optional", "ask", "cli_config", "effort"]

/-- The key a node names its kind with. -/
def tag : String := "kind"

/-- Every kind a node can declare. -/
def kinds : List String :=
  ["prompt", "bash", "loop", "parallel", "check", "executor", "gate", "workflow", "pull_request"]

/-- `NodeKind::keys`: what a node of a kind accepts besides; none for a kind that does not exist. -/
def kindKeys (kind : String) : Option (List String) :=
  match kind with
  | "prompt" => some ["prompt"]
  | "bash" => some ["run"]
  | "loop" => some ["until", "prompt", "concurrency", "scope_expansion"]
  | "parallel" => some ["join", "coordination", "nodes"]
  | "check" => some ["builtin", "max_severity"]
  | "executor" => some ["executor", "with", "timeout_seconds"]
  | "gate" => some ["assignee", "message", "options", "on", "shows", "external"]
  | "workflow" => some ["use", "inputs", "isolation", "mounts"]
  | "pull_request" => some ["title", "body", "receipt"]
  | _ => none

/-- Every key a node of a kind reads: those of every node, the tag, then its kind's own. -/
def nodeKeys (kind : String) : Option (List String) :=
  (kindKeys kind).map fun own => nodeLevelKeys ++ [tag] ++ own

/-- Keys no node accepts any more, each with what took its place. -/
def retiredNodeKeys : List (String × String) :=
  [("role", "a node names its runner with `runner:`"),
    ("interactive", "a node that declares `questions` asks them, and whichever surface is " ++
      "watching puts them to a person"),
    ("fresh_context", "every session starts fresh; `on_interrupt: resume_session` reuses one only " ++
      "when a run resumes")]

def retired (key : String) : Option String :=
  (retiredNodeKeys.find? fun entry => entry.1 == key).map (·.2)

/-- `ContextSpec::KEYS`: what a context source is one of. -/
def contextKeys : List String :=
  ["files", "command", "artifact", "mcp", "run-events", "tasks", "knowledge", "node-output"]

/-- Spellings an earlier workflow may carry, each with the key it stands for. -/
def contextAliases : List (String × String) := [("ledger", "tasks")]

/-- What a `files:` entry written as a mapping accepts. -/
def contextFileKeys : List String := ["path", "optional"]

/-- What a reference names its artifact with. -/
def artifactRefKeys : List String := ["kind", "name"]

/-- What a context source's `artifact:` reads, beside what names the artifact. -/
def contextArtifact : List String := ["node"]

/-- What a mount's `artifact:` reads, beside what names the artifact. -/
def mountArtifact : List String := ["node", "as"]

/-- What an `on_finish` step is one of. -/
def onFinishKeys : List String := ["cleanup", "distill"]

theorem isSome_kindKeys {kind : String} (h : kind ∈ kinds) : (kindKeys kind).isSome = true := by
  revert kind
  decide

theorem tag_mem_nodeKeys {kind : String} {valid : List String} (h : nodeKeys kind = some valid) :
    tag ∈ valid := by
  obtain ⟨own, -, rfl⟩ := Option.map_eq_some_iff.mp h
  simp

/-! ## The key meant -/

/-- One candidate held against the best so far, and whether another is as near as that. -/
def nearestStep (edits : String → String → Nat) (typed : String) (room : Nat)
    (held : Option (String × Nat) × Bool) (candidate : String) : Option (String × Nat) × Bool :=
  let far := edits typed candidate
  if candidate = typed ∨ far > room then held
  else
    match held.1 with
    | some (best, closest) =>
      if far = closest ∧ best ≠ candidate then (held.1, true)
      else if far ≥ closest then held
      else (some (candidate, far), false)
    | none => (some (candidate, far), false)

/-- The candidate `typed` most likely misspells: within two edits of it and of less than all of it,
    and closer than every other. -/
def nearest (edits : String → String → Nat) (typed : String) (candidates : List String) :
    Option String :=
  let room := min 2 (typed.length - 1)
  let found := candidates.foldl (nearestStep edits typed room) (none, false)
  if found.2 then none else found.1.map (·.1)

/-- What is held as best after one candidate more is that candidate, or was held before it. -/
theorem nearestStep_best {edits : String → String → Nat} {typed candidate : String}
    {room : Nat} {held : Option (String × Nat) × Bool} {best : String × Nat}
    (h : (nearestStep edits typed room held candidate).1 = some best) :
    held.1 = some best ∨ best.1 = candidate := by
  simp only [nearestStep] at h
  split_ifs at h with hout
  · exact .inl h
  · split at h
    · split_ifs at h with htie hfar
      · exact .inl h
      · exact .inl h
      · cases h
        exact .inr rfl
    · cases h
      exact .inr rfl

theorem foldl_nearestStep_mem {edits : String → String → Nat} {typed : String} {room : Nat}
    {candidates : List String} {held : Option (String × Nat) × Bool} {best : String × Nat}
    (h : (candidates.foldl (nearestStep edits typed room) held).1 = some best) :
    held.1 = some best ∨ best.1 ∈ candidates := by
  induction candidates generalizing held with
  | nil => exact .inl h
  | cons candidate rest ih =>
    rcases ih h with hstep | hrest
    · rcases nearestStep_best hstep with hheld | rfl
      · exact .inl hheld
      · exact .inr List.mem_cons_self
    · exact .inr (List.mem_cons_of_mem _ hrest)

theorem nearest_mem {edits : String → String → Nat} {typed near : String}
    {candidates : List String} (h : nearest edits typed candidates = some near) :
    near ∈ candidates := by
  simp only [nearest] at h
  split_ifs at h
  obtain ⟨best, hbest, rfl⟩ := Option.map_eq_some_iff.mp h
  exact (foldl_nearestStep_mem hbest).resolve_left (by simp)

/-! ## Edits -/

/-- One letter of what was typed held against each of a name's, over the row of edits before it. -/
def editsRow (c : Char) (name : List Char) (above : Nat) (row : List Nat) (left : Nat) : List Nat :=
  match name, row with
  | d :: name, here :: row =>
    let edits := min (left + 1) (min (above + if c = d then 0 else 1) (here + 1))
    edits :: editsRow c name here row edits
  | _, _ => []

/-- How many letters have to be put in, taken out or replaced to make one name of another. -/
def levenshtein (typed name : String) : Nat :=
  let name := name.toList
  let rows := typed.toList.foldl (fun (held : Nat × List Nat) c =>
    (held.1 + 1, editsRow c name held.1 held.2 (held.1 + 1))) (0, List.range' 1 name.length)
  rows.2.getLastD rows.1

example : levenshtein "nodez" "nodes" = 1 ∧ levenshtein "kind" "id" = 2 ∧
    levenshtein "promt" "prompt" = 1 := by decide +kernel

example : nearest levenshtein "nodez" workflowKeys = some "nodes" ∧
    nearest levenshtein "prmpt" kinds = some "prompt" ∧
    nearest levenshtein "on" workflowKeys = none := by decide +kernel

end Yunta.WorkflowAudit
