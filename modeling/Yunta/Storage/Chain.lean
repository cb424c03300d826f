/-
  The chain a run's log is verified by: the link of a row, the walk, and the stored head it has to
  end on.

  1. **Links** — `chainHash` hashes the link before a row and the row's own fields, framed in a
     fixed order.  A run's first link is anchored on the hash of its manifest hash.

  2. **Rows** — a row is stored as the cells SQLite holds, and read back as a `StoredRow`; a cell of
     the wrong type is a read error, and a read error ends the walk.

  3. **The walk** — `verifyChain` judges each row after the link before it, then the head.

  Three things the code calls stand outside it and are parameters: the hash (`sha256Hex`, lowercase
  hex of SHA-256), and the reading of `manifest_hash` in a payload's JSON (`manifestHash`).
-/
import Yunta.Events.Basics
import Yunta.Lib.Framing
import Yunta.Lib.HashChain

set_option linter.unusedVariables false

namespace Yunta.Storage

open Framing (Bytes utf8 frames)

/-! ## Errors -/

/-- A failed storage call, with the sentence each is shown as. -/
inductive StorageError where
  | append (runId : RunId)
  | serialize (runId : RunId)
  | read (runId : RunId)
  | corruptSeq (runId : RunId)
  | genesisMissing (runId : RunId)
  | verifyUnknownRun (runId : RunId)
  | corruptGenesis (runId : RunId)
  deriving DecidableEq

def StorageError.text : StorageError → String
  | append runId => "failed to append an event for run `" ++ runId ++ "`"
  | serialize runId => "failed to serialize the payload for run `" ++ runId ++ "`"
  | read runId => "failed to read events for run `" ++ runId ++ "`"
  | corruptSeq runId => "a stored seq for run `" ++ runId ++ "` is not a position"
  | genesisMissing runId =>
    "run `" ++ runId ++ "`: the first event of a run must be `run_created`; the hash chain's " ++
      "genesis is derived from its manifest_hash"
  | verifyUnknownRun runId => "run `" ++ runId ++ "` has no events to verify"
  | corruptGenesis runId =>
    "run `" ++ runId ++ "`: its `run_created` has no readable manifest_hash, so there is no " ++
      "chain genesis"

/-- `Seq::try_from`: a position is above zero. -/
def seqTryFrom (runId : RunId) (value : Int) : Except StorageError Nat :=
  if 0 < value then .ok value.toNat else .error (.corruptSeq runId)

/-! ## Links -/

/-- The structural fields hashed into one chain link. -/
structure ChainHashFields where
  prevHash : String
  runId : String
  seq : Int
  ts : String
  nodeId : Option String
  kind : String
  payloadJson : String
  schemaVersion : Nat

/-- The fields of a link after the hash before it, in the schema's own order.  An absent node id
    is the empty field. -/
def ChainHashFields.framed (f : ChainHashFields) : List Bytes :=
  [f.runId, toString f.seq, f.ts, f.nodeId.getD "", f.kind, f.payloadJson,
    toString f.schemaVersion].map utf8

/-- The bytes a link is hashed from. -/
def ChainHashFields.input (f : ChainHashFields) : Bytes := utf8 f.prevHash ++ frames f.framed

/-! ## Rows -/

/-- A cell as SQLite stores it. -/
inductive Cell where
  | null
  | integer (value : Int)
  | real
  | text (value : String)
  | blob
  deriving DecidableEq

namespace Cell

/-- `row.get::<_, i64>`. -/
def asInteger : Cell → Option Int
  | integer value => some value
  | _ => none

/-- `row.get::<_, u32>`. -/
def asU32 : Cell → Option Nat
  | integer value => if 0 ≤ value ∧ value < 2 ^ 32 then some value.toNat else none
  | _ => none

/-- `row.get::<_, String>`. -/
def asText : Cell → Option String
  | text value => some value
  | _ => none

/-- `row.get::<_, Option<String>>`. -/
def asOptionalText : Cell → Option (Option String)
  | null => some none
  | text value => some (some value)
  | _ => none

end Cell

/-- One row of the walk's query, columns in the order it selects them. -/
structure Row where
  seq : Cell
  ts : Cell
  nodeId : Cell
  kind : Cell
  payloadJson : Cell
  schemaVersion : Cell
  eventHash : Cell
  deriving DecidableEq

/-- One persisted row as `verifyChain` reads it back. -/
structure StoredRow where
  seq : Int
  ts : String
  nodeId : Option String
  kind : String
  payloadJson : String
  schemaVersion : Nat
  eventHash : Option String
  deriving DecidableEq

/-- Reads one row of the walk's query. -/
def storedRow (row : Row) : Option StoredRow := do
  let seq ← row.seq.asInteger
  let ts ← row.ts.asText
  let nodeId ← row.nodeId.asOptionalText
  let kind ← row.kind.asText
  let payloadJson ← row.payloadJson.asText
  let schemaVersion ← row.schemaVersion.asU32
  let eventHash ← row.eventHash.asOptionalText
  return ⟨seq, ts, nodeId, kind, payloadJson, schemaVersion, eventHash⟩

/-- The fields a row's link is computed from, after `prevHash`. -/
def StoredRow.fields (runId : RunId) (prevHash : String) (row : StoredRow) : ChainHashFields :=
  ⟨prevHash, runId, row.seq, row.ts, row.nodeId, row.kind, row.payloadJson, row.schemaVersion⟩

/-! ## The walk -/

inductive ChainVerification where
  | intact (events : Nat)
  /-- The first event where the chain stops holding, with what exactly stopped holding. -/
  | broken (seq : Nat) (detail : String)
  deriving DecidableEq

section
variable (sha256Hex : Bytes → String) (manifestHash : String → Option String) (runId : RunId)

/-- One event's chain hash. -/
def chainHash (f : ChainHashFields) : String := sha256Hex f.input

/-- The chain's genesis: the manifest hash, hashed. -/
def genesisHash (hash : String) : String := sha256Hex (utf8 hash)

/-- The chain's anchor for a run's first row: `run_created`'s own manifest hash, hashed. -/
def genesisFromFirstRow (row : StoredRow) : Except StorageError String :=
  if row.kind ≠ "run_created" then .error (.genesisMissing runId)
  else
    match manifestHash row.payloadJson with
    | some hash => .ok (genesisHash sha256Hex hash)
    | none => .error (.corruptGenesis runId)

/-- What a row's link is anchored on: the hash before it, or the genesis. -/
def anchor (prevHash : Option String) (row : StoredRow) : Except StorageError String :=
  match prevHash with
  | some prev => .ok prev
  | none => genesisFromFirstRow sha256Hex manifestHash runId row

/-- Judges one row of the walk: `none` when it holds, else the broken verdict. -/
def judgeRow (row : StoredRow) (verified : Nat) (prevHash : Option String) :
    Except StorageError (Option ChainVerification) :=
  let expectedSeq : Int := verified + 1
  match seqTryFrom runId row.seq with
  | .error e => .error e
  | .ok seq =>
    if row.seq ≠ expectedSeq then
      .ok (some (.broken seq ("expected seq " ++ toString expectedSeq ++ " but found " ++
        toString row.seq ++ ": an event was deleted, inserted or reordered")))
    else
      match row.eventHash with
      | none =>
        .ok (some (.broken seq "event has no stored hash (written before the chain existed)"))
      | some storedHash =>
        match anchor sha256Hex manifestHash runId prevHash row with
        | .error e => .ok (some (.broken seq e.text))
        | .ok anchor =>
          if chainHash sha256Hex (row.fields runId anchor) ≠ storedHash then
            .ok (some (.broken seq ("stored hash does not match the recomputed chain: the event " ++
              "or its predecessor's hash was altered")))
          else .ok none

/-- The stored head of a run: the last appended seq and hash, as its cells hold them. -/
structure HeadRow where
  seq : Cell
  eventHash : Cell
  deriving DecidableEq

/-- What the run's stored head says about a walk that verified `verified` rows and ended on the row
    whose stored hash is `lastHash`. -/
def judgeHead (head : Option (Int × String)) (verified : Nat) (lastHash : Option String) :
    Except StorageError ChainVerification :=
  let last : Int := verified
  match seqTryFrom runId last with
  | .error e => .error e
  | .ok lastSeq =>
    match head with
    | some (seq, hash) =>
      if seq = last ∧ some hash = lastHash then .ok (.intact verified)
      else if last < seq then
        match seqTryFrom runId seq with
        | .error e => .error e
        | .ok headSeq =>
          .ok (.broken headSeq ("the log ends at seq " ++ toString last ++
            ", its stored head is seq " ++ toString seq ++ ": the tail was deleted"))
      else .ok (.broken lastSeq "the stored head does not name the last event")
    | none => .ok (.broken lastSeq "no stored head: written before heads were anchored")

/-- Reads the run's stored head, when it has one. -/
def storedHead (head : Option HeadRow) : Except StorageError (Option (Int × String)) :=
  match head with
  | none => .ok none
  | some head =>
    match head.seq.asInteger, head.eventHash.asText with
    | some seq, some hash => .ok (some (seq, hash))
    | _, _ => .error (.read runId)

/-- The walk over the rows still to read, after `verified` of them, the last one's hash in hand. -/
def walk (head : Option HeadRow) (verified : Nat) (prevHash : Option String) :
    List Row → Except StorageError ChainVerification
  | [] =>
    if verified = 0 then .error (.verifyUnknownRun runId)
    else
      match storedHead runId head with
      | .error e => .error e
      | .ok head => judgeHead runId head verified prevHash
  | row :: rest =>
    match storedRow row with
    | none => .error (.read runId)
    | some stored =>
      match judgeRow sha256Hex manifestHash runId stored verified prevHash with
      | .error e => .error e
      | .ok (some verdict) => .ok verdict
      | .ok none => walk head (verified + 1) stored.eventHash rest

/-- Walks the run's whole chain recomputing every hash from the bytes as persisted: `rows` are the
    run's rows in seq order, and `head` its stored head. -/
def verifyChain (rows : List Row) (head : Option HeadRow) :
    Except StorageError ChainVerification :=
  walk sha256Hex manifestHash runId head 0 none rows

end

end Yunta.Storage
