/-
  The run manifest, and the document it is written as.

  1. **Documents** — `Document` is what serialization makes of a value: a tree whose mappings are
     marked by whether they keep the order they were declared in.  A field that is skipped is not
     in its struct's mapping.

  2. **The manifest** — each struct of it, and its fields under the names they are written by.  What
     the manifest holds of a node, an input and a config layer is kept as the document it is written
     as (`Rendered`).

  3. **Reading** — `read` keeps the order of the mappings that keep theirs, and of no other.
     `read_struct`: two structs of the same fields read the same exactly when each field does, so a
     manifest's reading says every field of it (`Manifest.read_iff`).
-/
import Yunta.Lib.Json
import Yunta.Events.Basics

set_option linter.unusedVariables false

namespace Yunta.Frozen

open Json

/-! ## Documents -/

/-- What serialization makes of a value; `true` marks a mapping that keeps its order. -/
abbrev Document := Value Bool

/-- A part of the manifest as the document it is written as. -/
structure Rendered where
  document : Document
  distinct : distinct document = true

/-- A map by key. -/
structure Entries (α : Type) where
  entries : List (String × α)
  distinct : (entries.map (·.1)).Nodup

namespace Entries

variable {α : Type}

/-- The mapping a map is written as. -/
def document (keepsOrder : Bool) (write : α → Document) (map : Entries α) : Document :=
  .obj keepsOrder (map.entries.map fun e => (e.1, write e.2))

/-- A map that is skipped when it is empty. -/
def unlessEmpty (write : α → Document) (map : Entries α) : Option Document :=
  if map.entries.isEmpty then none else some (map.document false write)

end Entries

/-- A sequence that is skipped when it is empty. -/
def unlessEmpty {α : Type} (write : α → Document) (items : List α) : Option Document :=
  if items.isEmpty then none else some (.arr (items.map write))

/-- A struct: each field it does not skip, by name. -/
def struct (fields : List (String × Option Document)) : Document :=
  .obj false (fields.filterMap fun field => field.2.map (field.1, ·))

/-! ## The manifest -/

/-- Which rounds of a node's questions stop the run for a person. -/
inductive Ask where
  | always | required
  deriving DecidableEq

def Ask.document : Ask → Document
  | .always => .str "always"
  | .required => .str "required"

/-- `include: all`, or the ids of the nodes the mode includes. -/
inductive ModeInclude where
  | all
  | nodes (ids : List NodeId)
  deriving DecidableEq

def ModeInclude.document : ModeInclude → Document
  | .all => .str "all"
  | .nodes ids => .arr (ids.map .str)

structure ModeSpec where
  included : ModeInclude
  ask : Option Ask := none
  deriving DecidableEq

def ModeSpec.document (mode : ModeSpec) : Document :=
  struct [("include", some mode.included.document), ("ask", mode.ask.map Ask.document)]

structure Workflow where
  name : String
  description : Option String := none
  /-- Declaration order is the promotion ladder. -/
  modes : Option (Entries ModeSpec) := none
  inputs : Entries Rendered := ⟨[], .nil⟩
  nodeDefaults : Option Rendered := none
  nodes : List Rendered
  yuntaSchema : Option String := none
  onFinish : List Rendered := []

def Workflow.document (workflow : Workflow) : Document :=
  struct
    [("name", some (.str workflow.name)),
      ("description", workflow.description.map .str),
      ("modes", workflow.modes.map (·.document true ModeSpec.document)),
      ("inputs", workflow.inputs.unlessEmpty Rendered.document),
      ("node_defaults", workflow.nodeDefaults.map (·.document)),
      ("nodes", some (.arr (workflow.nodes.map (·.document)))),
      ("yunta_schema", workflow.yuntaSchema.map .str),
      ("on_finish", unlessEmpty Rendered.document workflow.onFinish)]

inductive Isolation where
  | worktree | none
  deriving DecidableEq

def Isolation.document : Isolation → Document
  | .worktree => .str "worktree"
  | .none => .str "none"

/-- The state roots a run is frozen to at creation. -/
structure FrozenPaths where
  runsRoot : String
  worktreesRoot : String

def FrozenPaths.document (paths : FrozenPaths) : Document :=
  struct [("runs_root", some (.str paths.runsRoot)),
    ("worktrees_root", some (.str paths.worktreesRoot))]

/-- Which pack a run's workflow came from. -/
structure PackProvenance where
  publisher : String
  name : String
  version : String
  commit : Option CommitSha := none

def PackProvenance.document (pack : PackProvenance) : Document :=
  struct [("publisher", some (.str pack.publisher)), ("name", some (.str pack.name)),
    ("version", some (.str pack.version)), ("commit", pack.commit.map .str)]

structure ProjectIdentity where
  gitCommonDir : String

def ProjectIdentity.document (project : ProjectIdentity) : Document :=
  struct [("git_common_dir", some (.str project.gitCommonDir))]

/-- The adapter a run was born on, or the fixture its sessions are scripted from. -/
inductive RunAdapter where
  | named (id : String)
  | mock (fixture : String)

def RunAdapter.document : RunAdapter → Document
  | .named id => .str id
  | .mock fixture => struct [("fixture", some (.str fixture))]

/-- A pack file whose provenance could not be read, and why. -/
structure ProvenanceGap where
  file : String
  detail : String

def ProvenanceGap.document (gap : ProvenanceGap) : Document :=
  struct [("file", some (.str gap.file)), ("detail", some (.str gap.detail))]

/-- A child workflow as its parent's run was born with it. -/
structure FrozenWorkflow where
  text : String
  prompts : Entries String
  pack : Option PackProvenance := none
  provenanceGaps : List ProvenanceGap := []

def FrozenWorkflow.document (child : FrozenWorkflow) : Document :=
  struct
    [("text", some (.str child.text)),
      ("prompts", some (child.prompts.document false .str)),
      ("pack", child.pack.map PackProvenance.document),
      ("provenance_gaps", unlessEmpty ProvenanceGap.document child.provenanceGaps)]

/-- Every input a run's nodes interpret, by the hash of its content. -/
structure FrozenInputs where
  agents : Entries String
  skills : Entries (Entries String)
  executors : Entries String
  workflows : Entries FrozenWorkflow
  knowledge : Entries String

def FrozenInputs.document (frozen : FrozenInputs) : Document :=
  struct
    [("agents", some (frozen.agents.document false .str)),
      ("skills", some (frozen.skills.document false (·.document false .str))),
      ("executors", some (frozen.executors.document false .str)),
      ("workflows", some (frozen.workflows.document false FrozenWorkflow.document)),
      ("knowledge", some (frozen.knowledge.document false .str))]

/-- A link at a path an agent loads, and what it resolves to. -/
structure LoadedLink where
  path : String
  target : String
  passed : List String := []
  tree : Bool

def LoadedLink.document (link : LoadedLink) : Document :=
  struct [("path", some (.str link.path)), ("target", some (.str link.target)),
    ("passed", unlessEmpty .str link.passed), ("tree", some (.bool link.tree))]

/-- Everything a run needs frozen at creation time. -/
structure Manifest where
  schemaVersion : Nat
  yuntaVersion : String
  workflow : Workflow
  config : Rendered
  inputs : Entries String
  prompts : Entries String
  baseBranch : String
  baseCommit : CommitSha
  isolation : Isolation
  maxParallelNodes : Nat
  workflowHash : String
  configHash : String
  paths : Option FrozenPaths := none
  pack : Option PackProvenance := none
  project : Option ProjectIdentity := none
  adapter : Option RunAdapter := none
  frozen : Option FrozenInputs := none
  provenanceGaps : List ProvenanceGap := []
  loadedLinks : List LoadedLink := []

/-- The manifest's fields, under the names they are written by. -/
def Manifest.fields (manifest : Manifest) : List (String × Option Document) :=
  [("schema_version", some (.num manifest.schemaVersion)),
    ("yunta_version", some (.str manifest.yuntaVersion)),
    ("workflow", some manifest.workflow.document),
    ("config", some manifest.config.document),
    ("inputs", some (manifest.inputs.document false .str)),
    ("prompts", some (manifest.prompts.document false .str)),
    ("base_branch", some (.str manifest.baseBranch)),
    ("base_commit", some (.str manifest.baseCommit)),
    ("isolation", some manifest.isolation.document),
    ("max_parallel_nodes", some (.num manifest.maxParallelNodes)),
    ("workflow_hash", some (.str manifest.workflowHash)),
    ("config_hash", some (.str manifest.configHash)),
    ("paths", manifest.paths.map FrozenPaths.document),
    ("pack", manifest.pack.map PackProvenance.document),
    ("project", manifest.project.map ProjectIdentity.document),
    ("adapter", manifest.adapter.map RunAdapter.document),
    ("frozen", manifest.frozen.map FrozenInputs.document),
    ("provenance_gaps", unlessEmpty ProvenanceGap.document manifest.provenanceGaps),
    ("loaded_links", unlessEmpty LoadedLink.document manifest.loadedLinks)]

def Manifest.document (manifest : Manifest) : Document := struct manifest.fields

/-! ## Distinct keys -/

/-- A struct names each field once. -/
theorem distinct_struct {fields : List (String × Option Document)}
    (hnames : (fields.map (·.1)).Nodup)
    (hfields : ∀ field ∈ fields, ∀ document ∈ field.2, distinct document = true) :
    distinct (struct fields) = true := by
  refine distinct_obj.mpr ⟨?_, ?_⟩
  · have hsub : ∀ fields : List (String × Option Document),
        ((fields.filterMap fun field => field.2.map (field.1, ·)).map (·.1)).Sublist
          (fields.map (·.1)) := by
      intro fields
      induction fields with
      | nil => exact List.Sublist.slnil
      | cons field fields ih =>
        obtain ⟨name, _ | document⟩ := field
        · exact ih.cons name
        · exact ih.cons_cons name
    exact (hsub fields).nodup hnames
  · intro e he
    obtain ⟨field, hfield, hwritten⟩ := List.mem_filterMap.mp he
    obtain ⟨document, hdocument, rfl⟩ := Option.map_eq_some_iff.mp hwritten
    exact hfields field hfield document hdocument

section

variable {α : Type} {write : α → Document}

theorem Entries.distinct_document {keepsOrder : Bool} (map : Entries α)
    (hwrite : ∀ a, Json.distinct (write a) = true) :
    Json.distinct (map.document keepsOrder write) = true := by
  refine distinct_obj.mpr ⟨?_, ?_⟩
  · rw [List.map_map]
    exact map.distinct
  · intro e he
    obtain ⟨e', -, rfl⟩ := List.mem_map.mp he
    exact hwrite e'.2

theorem Entries.distinct_unlessEmpty (map : Entries α) (hwrite : ∀ a, Json.distinct (write a) = true) :
    ∀ document ∈ map.unlessEmpty write, Json.distinct document = true := by
  unfold Entries.unlessEmpty
  split
  · exact fun document h => nomatch h
  · rintro document ⟨⟩
    exact map.distinct_document hwrite

theorem distinct_list (items : List α) (hwrite : ∀ a, distinct (write a) = true) :
    distinct (.arr (items.map write)) = true := by
  refine distinct_arr.mpr fun v hv => ?_
  obtain ⟨a, -, rfl⟩ := List.mem_map.mp hv
  exact hwrite a

theorem distinct_unlessEmpty (items : List α) (hwrite : ∀ a, distinct (write a) = true) :
    ∀ document ∈ unlessEmpty write items, distinct document = true := by
  unfold unlessEmpty
  split
  · exact fun document h => nomatch h
  · rintro document ⟨⟩
    exact distinct_list items hwrite

theorem distinct_option (held : Option α) (hwrite : ∀ a, distinct (write a) = true) :
    ∀ document ∈ held.map write, distinct document = true := by
  intro document h
  obtain ⟨a, -, rfl⟩ := Option.map_eq_some_iff.mp h
  exact hwrite a

end

theorem distinct_str (s : String) : distinct (.str s : Document) = true := rfl

theorem ModeSpec.distinct_document (mode : ModeSpec) : distinct mode.document = true := by
  obtain ⟨included, ask⟩ := mode
  refine distinct_struct (by simp) ?_
  simp only [List.forall_mem_cons, List.not_mem_nil, IsEmpty.forall_iff, implies_true, and_true,
    Option.mem_some_iff, forall_eq']
  refine ⟨?_, distinct_option ask fun a => by cases a <;> rfl⟩
  cases included with
  | all => rfl
  | nodes ids => exact distinct_list ids distinct_str

theorem Workflow.distinct_document (workflow : Workflow) : distinct workflow.document = true := by
  refine distinct_struct (by simp) ?_
  simp only [List.forall_mem_cons, List.not_mem_nil, IsEmpty.forall_iff, implies_true, and_true,
    Option.mem_some_iff, forall_eq']
  refine ⟨rfl, distinct_option _ distinct_str, ?_, Entries.distinct_unlessEmpty _ Rendered.distinct,
    distinct_option _ Rendered.distinct, distinct_list _ Rendered.distinct,
    distinct_option _ distinct_str, distinct_unlessEmpty _ Rendered.distinct⟩
  exact distinct_option _ fun modes => modes.distinct_document ModeSpec.distinct_document

theorem PackProvenance.distinct_document (pack : PackProvenance) :
    distinct pack.document = true := by
  refine distinct_struct (by simp) ?_
  simp only [List.forall_mem_cons, List.not_mem_nil, IsEmpty.forall_iff, implies_true, and_true,
    Option.mem_some_iff, forall_eq']
  exact ⟨rfl, rfl, rfl, distinct_option _ distinct_str⟩

theorem ProvenanceGap.distinct_document (gap : ProvenanceGap) : distinct gap.document = true := rfl

theorem FrozenWorkflow.distinct_document (child : FrozenWorkflow) :
    distinct child.document = true := by
  refine distinct_struct (by simp) ?_
  simp only [List.forall_mem_cons, List.not_mem_nil, IsEmpty.forall_iff, implies_true, and_true,
    Option.mem_some_iff, forall_eq']
  exact ⟨rfl, child.prompts.distinct_document distinct_str,
    distinct_option _ PackProvenance.distinct_document,
    distinct_unlessEmpty _ ProvenanceGap.distinct_document⟩

theorem FrozenInputs.distinct_document (frozen : FrozenInputs) :
    distinct frozen.document = true := by
  refine distinct_struct (by simp) ?_
  simp only [List.forall_mem_cons, List.not_mem_nil, IsEmpty.forall_iff, implies_true, and_true,
    Option.mem_some_iff, forall_eq']
  exact ⟨frozen.agents.distinct_document distinct_str,
    frozen.skills.distinct_document fun files => files.distinct_document distinct_str,
    frozen.executors.distinct_document distinct_str,
    frozen.workflows.distinct_document FrozenWorkflow.distinct_document,
    frozen.knowledge.distinct_document distinct_str⟩

theorem LoadedLink.distinct_document (link : LoadedLink) : distinct link.document = true := by
  refine distinct_struct (by simp) ?_
  simp only [List.forall_mem_cons, List.not_mem_nil, IsEmpty.forall_iff, implies_true, and_true,
    Option.mem_some_iff, forall_eq']
  exact ⟨rfl, rfl, distinct_unlessEmpty _ distinct_str, rfl⟩

/-- **No mapping of a manifest holds a key twice.** -/
theorem Manifest.distinct_document (manifest : Manifest) :
    distinct manifest.document = true := by
  refine distinct_struct (by simp [fields]) ?_
  simp only [fields, List.forall_mem_cons, List.not_mem_nil, IsEmpty.forall_iff, implies_true,
    and_true, Option.mem_some_iff, forall_eq']
  refine ⟨rfl, rfl, manifest.workflow.distinct_document, manifest.config.distinct,
    manifest.inputs.distinct_document distinct_str,
    manifest.prompts.distinct_document distinct_str, rfl, rfl, ?_, rfl, rfl, rfl,
    distinct_option _ fun _ => rfl, distinct_option _ PackProvenance.distinct_document,
    distinct_option _ fun _ => rfl, distinct_option _ ?_,
    distinct_option _ FrozenInputs.distinct_document,
    distinct_unlessEmpty _ ProvenanceGap.distinct_document,
    distinct_unlessEmpty _ LoadedLink.distinct_document⟩
  · cases manifest.isolation <;> rfl
  · intro adapter
    cases adapter <;> rfl

/-! ## Reading -/

/-- What a reader takes from a document: the order of the mappings that keep theirs, and of no
    other. -/
def read (document : Document) : Document := sorted (fun keepsOrder => !keepsOrder) id document

def Manifest.read (manifest : Manifest) : Document := Frozen.read manifest.document

/-- One field of two structs that read the same: where the first holds a document, the second holds
    one that reads the same. -/
theorem field_of_read {fields fields' : List (String × Option Document)}
    (hnames : (fields'.map (·.1)).Nodup) (hread : read (struct fields) = read (struct fields'))
    {name : String} {held held' : Option Document} (hheld : (name, held) ∈ fields)
    (hheld' : (name, held') ∈ fields') {document : Document} (hdocument : held = some document) :
    held'.map read = some (read document) := by
  have hsorted : sortKeys (sortedEntries (fun keepsOrder => !keepsOrder) id
        (fields.filterMap fun field => field.2.map (field.1, ·))) =
      sortKeys (sortedEntries (fun keepsOrder => !keepsOrder) id
        (fields'.filterMap fun field => field.2.map (field.1, ·))) := by
    simpa [read, struct, sorted] using hread
  have hmem : (name, read document) ∈ sortedEntries (fun keepsOrder => !keepsOrder) id
      (fields.filterMap fun field => field.2.map (field.1, ·)) := by
    rw [sortedEntries_eq]
    refine List.mem_map.mpr ⟨(name, document), List.mem_filterMap.mpr ⟨_, hheld, ?_⟩, rfl⟩
    rw [hdocument]
    rfl
  have hmem' := (List.mem_insertionSort ByKey).mpr hmem
  rw [← sortKeys, hsorted, sortKeys, List.mem_insertionSort] at hmem'
  rw [sortedEntries_eq] at hmem'
  obtain ⟨⟨name', document'⟩, hwritten, heq⟩ := List.mem_map.mp hmem'
  obtain ⟨⟨name'', held''⟩, hfield, hsome⟩ := List.mem_filterMap.mp hwritten
  obtain ⟨document'', hheld'', hpair⟩ := Option.map_eq_some_iff.mp hsome
  obtain ⟨rfl, rfl⟩ := Prod.mk.inj hpair
  obtain ⟨rfl, hdoc⟩ := Prod.mk.inj heq
  have hsame : held'' = held' :=
    (Prod.mk.inj (List.inj_on_of_nodup_map hnames hfield hheld' rfl)).2
  have hwritten'' : held'' = some document'' := hheld''
  rw [← hsame, hwritten'']
  exact congrArg some hdoc

/-- **A struct's reading says every field**: two structs of the same fields read the same exactly
    when each field does. -/
theorem read_struct {fields fields' : List (String × Option Document)}
    (hnames : (fields.map (·.1)).Nodup) (hsame : fields.map (·.1) = fields'.map (·.1)) :
    Frozen.read (struct fields) = Frozen.read (struct fields') ↔
      fields.map (fun field => field.2.map Frozen.read) =
        fields'.map fun field => field.2.map Frozen.read := by
  have hnames' : (fields'.map (·.1)).Nodup := hsame ▸ hnames
  have hlength : fields.length = fields'.length := by
    simpa using congrArg List.length hsame
  have hname : ∀ i (hi : i < fields.length) (hi' : i < fields'.length),
      (fields[i]).1 = (fields'[i]).1 := by
    intro i hi hi'
    have hget := List.getElem_of_eq hsame (i := i) (by simpa using hi)
    simpa using hget
  constructor
  · intro hread
    refine List.ext_getElem (by simpa using hlength) fun i hi hi' => ?_
    rw [List.length_map] at hi hi'
    rw [List.getElem_map, List.getElem_map]
    have hmem : ((fields[i]).1, (fields[i]).2) ∈ fields := List.getElem_mem hi
    have hmem' : ((fields[i]).1, (fields'[i]).2) ∈ fields' := by
      rw [hname i hi hi']
      exact List.getElem_mem hi'
    cases hheld : (fields[i]).2 with
    | some document => exact (field_of_read hnames' hread hmem hmem' hheld).symm
    | none =>
      cases hheld' : (fields'[i]).2 with
      | none => rfl
      | some document =>
        have hback := field_of_read hnames hread.symm hmem' hmem hheld'
        rw [hheld] at hback
        cases hback
  · intro hfields
    have hwritten : ∀ fields : List (String × Option Document),
        sortedEntries (fun keepsOrder => !keepsOrder) id
            (fields.filterMap fun field => field.2.map (field.1, ·)) =
          ((fields.map (·.1)).zip (fields.map fun field => field.2.map Frozen.read)).filterMap
            fun field => field.2.map (field.1, ·) := by
      intro fields
      induction fields with
      | nil => rfl
      | cons field fields ih =>
        obtain ⟨name, _ | document⟩ := field
        · exact ih
        · exact congrArg ((name, Frozen.read document) :: ·) ih
    show Value.obj false (sortKeys _) = Value.obj false (sortKeys _)
    rw [hwritten fields, hwritten fields', hsame, hfields]

/-- The names a manifest's fields are written by. -/
theorem Manifest.fields_names (manifest manifest' : Manifest) :
    (manifest.fields.map (·.1)).Nodup ∧
      manifest.fields.map (·.1) = manifest'.fields.map (·.1) := ⟨by simp [fields], rfl⟩

/-- **A manifest's reading says every field of it.** -/
theorem Manifest.read_iff (manifest manifest' : Manifest) :
    manifest.read = manifest'.read ↔
      manifest.fields.map (fun field => field.2.map Frozen.read) =
        manifest'.fields.map fun field => field.2.map Frozen.read :=
  read_struct (manifest.fields_names manifest').1 (manifest.fields_names manifest').2

end Yunta.Frozen
