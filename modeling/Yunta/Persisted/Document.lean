/-
  A document this system writes down and reads again.

  1. **Types** — a document's type declares its keys, each with what it reads under it and what it
     writes; a key may be left out where what it holds is empty.

  2. **Reading** — the version first, then the type's own keys, then what is unknown beside them:
     each top-level key of the file the read document does not write itself.

  3. **Writing** — the version this binary writes, the document's keys and the unknown ones.
-/
import Yunta.Persisted.Value

set_option linter.unusedVariables false

namespace Yunta.Persisted

open Yaml

/-! ## Types -/

/-- What a persisted document is written as. -/
inductive Encoding where
  | yaml | json
  deriving DecidableEq

/-- `VERSION_KEY_DEFAULT` -/
def versionKeyDefault : String := "schema_version"

/-- A key a document declares: what it reads under it, or without it, and what it writes, none where
    it leaves the key out. -/
structure Field (α : Type) where
  key : String
  parse : Option Value → Option α
  print : α → Option Value

/-- A type of persisted documents, over the values its fields hold.  A document is read from a
    mapping by its keys, or from a sequence by its places. -/
structure DocType (α : Type) where
  name : String
  schemaVersion : Nat
  versionKey : String := versionKeyDefault
  encoding : Encoding := .yaml
  fields : List (Field α)
  byPosition : List Value → Option (List α) := fun _ => none
  /-- What a value under a key reads as, once the words retired since are replaced. -/
  rewrite : String → Value → Value := fun _ v => v
  /-- The version is a `u32`. -/
  fits : schemaVersion < 2 ^ 32
  distinct : (fields.map (·.key)).Nodup
  /-- No JSON document replaces a word. -/
  plain : encoding = .json → ∀ key v, rewrite key v = v
  /-- What a field writes of what it read, it reads again. -/
  readsBack : ∀ field ∈ fields, ∀ (held : Option Value) (a : α),
    field.parse (held.map (rewrite field.key)) = some a →
      field.parse ((field.print a).map (rewrite field.key)) = some a
  readsBackAt : ∀ items doc, byPosition items = some doc →
    List.Forall₂ (fun field a => field.parse ((field.print a).map (rewrite field.key)) = some a)
      fields doc
  /-- What a field writes is spelled by JSON, and is what JSON holds in a JSON document. -/
  prints : ∀ field ∈ fields, ∀ (a : α) (v : Value), field.print a = some v →
    ∃ json, toJson v = some json ∧ (encoding = .json → json = v)

/-- One persisted document as this binary read it. -/
structure PersistedDoc (α : Type) where
  schemaVersion : Nat
  doc : List α
  /-- Every top-level key this binary's own type does not declare. -/
  unknown : OrdMap String Value

inductive PersistedError where
  | newerWriter (name : String) (found supported : Nat)
  | unreadable (name : String)
  | unreadableVersion (name : String) (found : Value)

/-- The library YAML and JSON are read and written by: a key written twice is refused, and what it
    writes it reads back. -/
structure Library where
  parse : List UInt8 → Option Value
  print : Value → Option (List UInt8)
  parseJson : List UInt8 → Option Value
  printJson : Value → Option (List UInt8)
  once : ∀ bytes v, parse bytes = some v → (v.entries.map (·.1)).Nodup
  held : ∀ bytes v, parseJson bytes = some v → Yaml.Held v
  parse_print : ∀ v bytes, (v.entries.map (·.1)).Nodup → print v = some bytes →
    parse bytes = some v
  parseJson_printJson : ∀ v bytes, Yaml.Held v → printJson v = some bytes → parseJson bytes = some v

namespace DocType

variable {α : Type} (T : DocType α)

/-! ## Reading -/

/-- The version a document declares: none is version 0, and anything but a whole number that fits
    `u32` is refused. -/
def declaredVersion (found : Option Value) : Except PersistedError Nat :=
  match found with
  | none => .ok 0
  | some found =>
    match found.asU64.filter (· < 2 ^ 32) with
    | some version => .ok version
    | none => .error (.unreadableVersion T.name found)

def checkVersion (schemaVersion : Nat) : Except PersistedError Nat :=
  if T.schemaVersion < schemaVersion then
    .error (.newerWriter T.name schemaVersion T.schemaVersion)
  else .ok schemaVersion

/-- An entry under the words that replaced the retired ones. -/
def rewriteEntry (entry : Value × Value) : Value × Value :=
  match entry.1.asStr with
  | some key => (entry.1, T.rewrite key entry.2)
  | none => entry

/-- `reconcile` -/
def reconcile : Value → Value
  | .mapping entries => .mapping (entries.map T.rewriteEntry)
  | v => v

/-- The document a value reads as.  YAML reads an empty file as a mapping without keys. -/
def deserialize : Value → Option (List α)
  | .mapping entries => T.fields.mapM fun field => field.parse (Mapping.get entries field.key)
  | .sequence items => T.byPosition items
  | .null => if T.encoding = .yaml then T.fields.mapM fun field => field.parse none else none
  | _ => none

/-- The keys a document writes, each with its value, in the order the type declares them. -/
def serialize (doc : List α) : List (String × Value) :=
  (T.fields.zip doc).filterMap fun held => (held.1.print held.2).map (held.1.key, ·)

/-- Every top-level key in `written` that `readBack` does not account for. -/
def unknownBeside (written : Value) (readBack : List α) : OrdMap String Value :=
  match written with
  | .mapping entries => (objectOf entries).filter fun key _ =>
      key != versionKeyDefault && !(T.serialize readBack).any fun known => known.1 == key
  | _ => ∅

/-- **`read_yaml`**, of a file that parses to `value`.  What is unknown is told from the file before
    a retired word is replaced. -/
def readYaml (value : Value) : Except PersistedError (PersistedDoc α) :=
  match toJson value with
  | none => .error (.unreadable T.name)
  | some json => do
    let version ← T.declaredVersion (Mapping.get json.entries T.versionKey)
    let schemaVersion ← T.checkVersion version
    match T.deserialize (T.reconcile value) with
    | none => .error (.unreadable T.name)
    | some doc => .ok ⟨schemaVersion, doc, T.unknownBeside json doc⟩

/-- **`read_json`**, of a file that parses to `value`. -/
def readJson (value : Value) : Except PersistedError (PersistedDoc α) := do
  let version ← T.declaredVersion (Mapping.get value.entries T.versionKey)
  let schemaVersion ← T.checkVersion version
  match T.deserialize value with
  | none => .error (.unreadable T.name)
  | some doc => .ok ⟨schemaVersion, doc, T.unknownBeside value doc⟩

/-- The value a file parses to, under its type's encoding. -/
def tree (library : Library) (bytes : List UInt8) : Option Value :=
  match T.encoding with
  | .yaml => library.parse bytes
  | .json => library.parseJson bytes

/-- **`PersistedDoc::read`** -/
def read (library : Library) (bytes : List UInt8) : Except PersistedError (PersistedDoc α) :=
  match T.tree library bytes with
  | none => .error (.unreadable T.name)
  | some value =>
    match T.encoding with
    | .yaml => T.readYaml value
    | .json => T.readJson value

/-! ## Writing -/

/-- The version this binary writes. -/
def stamp : Value := .number (.unsigned T.schemaVersion)

/-- `write_yaml`'s mapping: the document's keys in order, the version in its place or after them,
    and each unknown key that is not there yet. -/
def writeYaml (read : PersistedDoc α) : Value :=
  let ordered := (T.serialize read.doc).map fun entry => (Value.string entry.1, entry.2)
  .mapping (read.unknown.toList.foldl (fun fields kept =>
    if Mapping.containsKey fields kept.1 then fields else Mapping.insert fields kept.1 kept.2)
    (Mapping.insert ordered T.versionKey T.stamp))

/-- `write_json`'s object. -/
def writeJson (read : PersistedDoc α) : Value :=
  let object : OrdMap String Value := .ofList (T.serialize read.doc) compare
  .mapping (ofObject (read.unknown.toList.foldl (fun object kept =>
    if object.contains kept.1 then object else object.insert kept.1 kept.2)
    (object.insert T.versionKey T.stamp)))

/-- **`PersistedDoc::write`** -/
def write (library : Library) (read : PersistedDoc α) : Except PersistedError (List UInt8) :=
  let text :=
    match T.encoding with
    | .yaml => library.print (T.writeYaml read)
    | .json => library.printJson (T.writeJson read)
  match text with
  | some bytes => .ok bytes
  | none => .error (.unreadable T.name)

end DocType

end Yunta.Persisted
