/-
  The keys a workflow writes that nothing reads, every one at once.

  1. **The auditor** — what it found so far, which keys it read as others, and how many nodes it has
     met.  A place is asked of the text's map only for what is refused.

  2. **A mapping** — `judged` is the one loop a workflow, a node and an entry go through: a key nothing
     reads is refused, and read as the key it meant where the mapping does not write that.

  3. **The walk** — `workflow`, `nodes`, `node`, and the lists a node holds.  `nodes` goes as deep as
     the document does; below that there is no node to meet.
-/
import Yunta.Workflow.Keys
import Yunta.Workflow.Mapping

set_option linter.unusedVariables false

namespace Yunta.WorkflowAudit

open Yunta.Yaml

/-! ## The auditor -/

inductive Step where
  | key (key : String)
  | index (index : Nat)
  deriving DecidableEq

/-- Where a value is inside a document, from its root. -/
abbrev Pointer := List Step

/-- A node by its id, where that reads as one, and by how many nodes the document has before it. -/
structure Named where
  id : Option String
  index : Nat

inductive Subject where
  | document
  | node (named : Named)

inductive WorkflowFault where
  | unknownKey (key : String) (kind nearest : Option String)
  | unknownEntryKey (key what : String) (nearest : Option String)
  | unknownKind (kind nearest : String)

/-- Which place the map of the text is asked for: that of a key, or that of the value under it. -/
inductive Place where
  | key (pointer : Pointer)
  | value (pointer : Pointer)

structure Diagnostic where
  subject : Subject
  fault : WorkflowFault
  place : Place

/-- The mapping at `pointer` writes `written`, and is read as writing `meant`. -/
structure ReadAs where
  pointer : Pointer
  written : String
  meant : String

structure Auditor where
  broken : List Diagnostic
  readAs : List ReadAs
  seen : Nat

abbrev Audited (α : Type) := StateM Auditor α

/-- What the audit found, and the document it hands on. -/
structure Audit where
  broken : List Diagnostic
  repaired : Value
  readAs : List ReadAs

/-- A letter, then letters, digits, `_` or `-`. -/
def isName (text : List Char) : Bool :=
  match text with
  | [] => false
  | c :: rest => c.isAlpha && rest.all fun d => d.isAlphanum || d == '_' || d == '-'

/-- A node id is a name, or a name, `@` and the runner's name. -/
def isNodeId (text : String) : Bool :=
  match Str.splitOnce ['@'] text.toList with
  | some (base, runner) => isName base && isName runner
  | none => isName text.toList

/-- Records that what is at `place`, written about `subject`, is read by nothing. -/
def refuse (place : Place) (subject : Subject) (fault : WorkflowFault) : Audited Unit :=
  modify fun auditor => { auditor with broken := auditor.broken ++ [⟨subject, fault, place⟩] }

/-- Records that the mapping at `pointer` writes `written` and is read as writing `meant`. -/
def read (pointer : Pointer) (written meant : String) : Audited Unit :=
  modify fun auditor => { auditor with readAs := auditor.readAs ++ [⟨pointer, written, meant⟩] }

section Walk

variable (edits : String → String → Nat)

/-! ## A mapping -/

/-- The key `typed` most likely meant, where the mapping does not write that key already. -/
def meant (typed : String) (valid present : List String) : Option String :=
  (nearest edits typed valid).filter fun near => !present.contains near

/-- One mapping's keys against `valid`: what is under a key it accepts is `audited`, one nothing reads
    is refused as `fault` says, and read as the key it meant. -/
def judged (valid : List String) (audited : String → Value → Audited Value)
    (fault : String → WorkflowFault) (subject : Subject) (pointer : Pointer)
    (mapping : List (Value × Value)) : Audited (List (Value × Value)) :=
  let present := Mapping.keys mapping
  mapping.foldlM (fun kept entry =>
    match entry.1.asStr with
    | none => pure (Mapping.put kept entry.1 entry.2)
    | some name =>
      if valid.contains name then do
        let value ← audited name entry.2
        pure (Mapping.put kept entry.1 value)
      else do
        refuse (.key (pointer ++ [.key name])) subject (fault name)
        match meant edits name valid present with
        | some near => do
          read pointer name near
          pure (Mapping.put kept (.string near) entry.2)
        | none => pure kept) []

/-- An entry's keys, with nothing below them judged. -/
def entry (mapping : List (Value × Value)) (pointer : Pointer) (subject : Subject) (what : String)
    (valid : List String) : Audited (List (Value × Value)) :=
  judged edits valid (fun _ value => pure value)
    (fun name => .unknownEntryKey name what (nearest edits name valid)) subject pointer mapping

/-- What is under `key` put through `f`, where the mapping has it. -/
def inPlace (mapping : List (Value × Value)) (key : String) (f : Value → Audited Value) :
    Audited (List (Value × Value)) :=
  match mapping with
  | [] => pure []
  | first :: rest =>
    if first.1.asStr == some key then do
      let value ← f first.2
      pure ((first.1, value) :: rest)
    else do
      let rest ← inPlace rest key f
      pure (first :: rest)

/-- Each of a list that is a mapping put through `f`, with its index; any other is kept as it is. -/
def each (items : List Value) (f : Nat → List (Value × Value) → Audited (List (Value × Value))) :
    Audited (List Value) :=
  items.zipIdx.mapM fun item =>
    match item.1 with
    | .mapping mapping => Value.mapping <$> f item.2 mapping
    | other => pure other

/-- As `each`, and an entry that wrote keys and is left with none is taken out. -/
def eachLeft (items : List Value)
    (f : Nat → List (Value × Value) → Audited (List (Value × Value))) : Audited (List Value) :=
  items.zipIdx.foldlM (fun kept item =>
    match item.1 with
    | .mapping mapping => do
      let left ← f item.2 mapping
      if !mapping.isEmpty && left.isEmpty then pure kept else pure (kept ++ [.mapping left])
    | other => pure (kept ++ [other])) []

/-! ## The entries of a workflow's lists -/

/-- A `files:` source: a path is a path, and an entry written as a mapping has its keys. -/
def files (files : Value) (pointer : Pointer) (subject : Subject) : Audited Value :=
  match files with
  | .sequence files =>
    Value.sequence <$> each files fun index mapping =>
      entry edits mapping (pointer ++ [.index index]) subject "a `files:` entry" contextFileKeys
  | files => pure files

/-- An artifact reference: `claimed`, what its container reads, then what names the artifact. -/
def reference (reference : Value) (pointer : Pointer) (subject : Subject) (what : String)
    (claimed : List String) : Audited Value :=
  match reference with
  | .mapping reference =>
    Value.mapping <$> entry edits reference pointer subject what (claimed ++ artifactRefKeys)
  | reference => pure reference

/-- Whether a mapping carries a spelling of an earlier workflow's. -/
def aliased (mapping : List (Value × Value)) : Bool :=
  (Mapping.keys mapping).any fun key => contextAliases.any fun entry => entry.1 == key

/-- A context source: its own key, and what its `files:` and `artifact:` hold. -/
def source (mapping : List (Value × Value)) (pointer : Pointer) (subject : Subject) :
    Audited (List (Value × Value)) :=
  -- A spelling an earlier workflow may carry is read, and never suggested.
  if aliased mapping then pure mapping
  else do
    let source ← entry edits mapping pointer subject "a context source" contextKeys
    let source ← inPlace source "files" fun value =>
      files edits value (pointer ++ [.key "files"]) subject
    inPlace source "artifact" fun value =>
      reference edits value (pointer ++ [.key "artifact"]) subject
        "an `artifact:` context source" contextArtifact

/-- A `context:` list. -/
def sources (sources : List Value) (pointer : Pointer) (subject : Subject) : Audited (List Value) :=
  eachLeft sources fun index mapping => source edits mapping (pointer ++ [.index index]) subject

/-- A `mounts:` list: each entry's `artifact:`. -/
def mounts (mounts : List Value) (pointer : Pointer) (subject : Subject) : Audited (List Value) :=
  each mounts fun index mapping =>
    inPlace mapping "artifact" fun value =>
      reference edits value (pointer ++ [.index index, .key "artifact"]) subject
        "a `mounts:` entry" mountArtifact

/-- An `on_finish:` list: each step's own key. -/
def closingSteps (steps : List Value) (pointer : Pointer) : Audited (List Value) :=
  eachLeft steps fun index mapping =>
    entry edits mapping (pointer ++ [.index index]) .document "an `on_finish` step" onFinishKeys

/-! ## The walk -/

/-- The kind a mapping names, where it names one. -/
def writtenKind (mapping : List (Value × Value)) : Option String :=
  (Mapping.get mapping tag).bind Value.asStr

/-- The kind a mapping is, and the mapping with that kind written: one it writes, or the one a slip in
    it most likely meant, refused where it is written. -/
def kindOf (mapping : List (Value × Value)) (pointer : Pointer) (subject : Subject) :
    Audited (Option String × List (Value × Value)) :=
  match writtenKind mapping with
  | none => pure (none, mapping)
  | some written =>
    if (kindKeys written).isSome then pure (some written, mapping)
    else
      match nearest edits written kinds with
      | none => pure (none, mapping)
      | some near => do
        refuse (.value (pointer ++ [.key tag])) subject (.unknownKind written near)
        pure (some near, Mapping.put mapping (.string tag) (.string near))

/-- The value under a key a node of `kind` accepts: a list it holds is judged entry by entry. -/
def listed (children : List Value → Pointer → Audited (List Value)) (kind : String)
    (pointer : Pointer) (subject : Subject) (name : String) (value : Value) : Audited Value :=
  match kind, name, value with
  | "parallel", "nodes", .sequence nodes =>
    Value.sequence <$> children nodes (pointer ++ [.key "nodes"])
  | _, "context", .sequence held =>
    Value.sequence <$> sources edits held (pointer ++ [.key "context"]) subject
  | "workflow", "mounts", .sequence held =>
    Value.sequence <$> mounts edits held (pointer ++ [.key "mounts"]) subject
  | _, _, value => pure value

/-- The refusal of a key no `kind` node reads; a key retired is told what took its place instead. -/
def unknownNodeKey (kind : String) (valid : List String) (name : String) : WorkflowFault :=
  .unknownKey name (some kind)
    (match retired name with
    | some _ => none
    | none => nearest edits name valid)

/-- One node's keys, judged against its own and its kind's.  A node whose kind is not one, and is no
    slip from one, is left as it is. -/
def nodeAs (children : List Value → Pointer → Audited (List Value)) (mapping : List (Value × Value))
    (pointer : Pointer) (subject : Subject) : Audited (List (Value × Value)) := do
  let (kind, mapping) ← kindOf edits mapping pointer subject
  match kind with
  | none => pure mapping
  | some kind =>
    match nodeKeys kind with
    | none => pure mapping
    | some valid =>
      judged edits valid (listed edits children kind pointer subject)
        (unknownNodeKey edits kind valid) subject pointer mapping

/-- A node, named by its id where that reads as one, and by how many the audit has met. -/
def node (children : List Value → Pointer → Audited (List Value)) (mapping : List (Value × Value))
    (pointer : Pointer) : Audited (List (Value × Value)) := do
  let auditor ← get
  let id := ((Mapping.get mapping "id").bind Value.asStr).filter isNodeId
  modify fun auditor => { auditor with seen := auditor.seen + 1 }
  nodeAs edits children mapping pointer (.node ⟨id, auditor.seen⟩)

/-- The nodes of a `nodes:` list, each audited, in a document that goes no deeper than `depth`. -/
def nodes (depth : Nat) (items : List Value) (pointer : Pointer) : Audited (List Value) :=
  match depth with
  | 0 => pure items
  | depth + 1 =>
    each items fun index mapping => node edits (nodes depth) mapping (pointer ++ [.index index])

/-- The value under a key a workflow accepts at its top. -/
def topLevel (depth : Nat) (name : String) (value : Value) : Audited Value :=
  match name, value with
  | "nodes", .sequence items => Value.sequence <$> nodes edits depth items [.key "nodes"]
  | "on_finish", .sequence steps => Value.sequence <$> closingSteps edits steps [.key "on_finish"]
  | _, value => pure value

def workflow (depth : Nat) (mapping : List (Value × Value)) : Audited (List (Value × Value)) :=
  judged edits workflowKeys (topLevel edits depth)
    (fun name => .unknownKey name none (nearest edits name workflowKeys)) .document [] mapping

/-- A document that is a mapping is walked as a workflow, and any other handed on as it is. -/
def walk (document : Value) : Audited Value :=
  match document with
  | .mapping mapping => Value.mapping <$> workflow edits (Value.depth document) mapping
  | other => pure other

/-- Every key the document writes that nothing reads. -/
def audit (document : Value) : Audit :=
  let (repaired, auditor) := (walk edits document).run ⟨[], [], 0⟩
  ⟨auditor.broken, repaired, auditor.readAs⟩

end Walk

end Yunta.WorkflowAudit
