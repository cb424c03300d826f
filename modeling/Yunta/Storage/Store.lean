/-
  The log in SQLite: two tables, and the transactions that write them.

  1. **Tables** — `events`, one row for each event under its run and seq, and `run_heads`, the last
     seq and hash of each run.  `Store.ordered` is the walk's query, `Store.nextSeq` the append's.

  2. **Transactions** — `appendAt` gives an event the next seq of its run and its link of the chain;
     `purgeRun` deletes a run's rows and its head.  One that fails leaves the tables as they were.

  3. **Calls** — any number of connections, one transaction after another.  Every transaction takes
     the write lock before it reads, so an interleaving of the connections is a list of calls.

  A draft carries what `serde_json` makes of its whole payload, and an instant is the text
  `to_rfc3339` writes: both are the caller's.
-/
import Yunta.Events.Payloads
import Yunta.Lib.OrdMap
import Yunta.Storage.Chain
import Mathlib.Data.List.Sort

set_option linter.unusedVariables false

namespace Yunta.Storage

open Framing (Bytes)

/-! ## Tables -/

/-- An event before it has its place in the log. -/
structure EventDraft where
  runId : RunId
  nodeId : Option NodeId
  payload : EventPayload
  /-- The payload as JSON, every field of it; `none` where it does not serialize. -/
  payloadJson : Option String

/-- One row of `events`: its run and its other columns. -/
structure EventRow where
  runId : RunId
  row : StoredRow
  deriving DecidableEq

structure Store where
  events : List EventRow
  runHeads : OrdMap RunId (Int × String)

namespace Store

def empty : Store := ⟨[], ∅⟩

/-- The rows of a run, as they were inserted. -/
def rowsOf (store : Store) (runId : RunId) : List StoredRow :=
  (store.events.filter (·.runId = runId)).map (·.row)

/-- `SELECT .. FROM events WHERE run_id = ?1 ORDER BY seq ASC`. -/
def ordered (store : Store) (runId : RunId) : List StoredRow :=
  (store.rowsOf runId).insertionSort fun r r' => r.seq ≤ r'.seq

/-- `SELECT COALESCE(MAX(seq), 0) + 1 FROM events WHERE run_id = ?1`, read as an `i64`. -/
def nextSeq (store : Store) (runId : RunId) : Except StorageError Int :=
  let next := ((store.rowsOf runId).map (·.seq)).max?.getD 0 + 1
  -- SQLite answers a real past the last `i64`
  if next < 2 ^ 63 then .ok next else .error (.append runId)

/-- `SELECT event_hash FROM events WHERE run_id = ?1 AND seq = ?2`. -/
def hashAt (store : Store) (runId : RunId) (seq : Int) : Except StorageError (Option String) :=
  match (store.rowsOf runId).find? (·.seq = seq) with
  | some row => .ok row.eventHash
  | none => .error (.append runId)

/-- `INSERT INTO events`, refused where the row's primary key is taken. -/
def insert (store : Store) (runId : RunId) (row : StoredRow) : Except StorageError Store :=
  if (store.rowsOf runId).any (·.seq = row.seq) then .error (.append runId)
  else .ok { store with events := store.events ++ [⟨runId, row⟩] }

/-- `INSERT INTO run_heads .. ON CONFLICT(run_id) DO UPDATE`. -/
def setHead (store : Store) (runId : RunId) (seq : Int) (eventHash : String) : Store :=
  { store with runHeads := store.runHeads.insert runId (seq, eventHash) }

end Store

/-! ## Transactions -/

section
variable (sha256Hex : Bytes → String) (manifestHash : String → Option String)

/-- The hash the event at `seq` chains onto: the manifest-derived genesis for a run's first event,
    the stored hash of the event before otherwise. -/
def previousHash (store : Store) (draft : EventDraft) (seq : Int) : Except StorageError String :=
  if seq = 1 then
    match draft.payload with
    | .run (.created p) => .ok (genesisHash sha256Hex p.manifestHash)
    | _ => .error (.genesisMissing draft.runId)
  else
    match store.hashAt draft.runId (seq - 1) with
    -- an absent hash predates the chain: the append goes on from the empty text
    | .ok stored => .ok (stored.getD "")
    | .error e => .error e

/-- The row a draft is stored as, before its own hash. -/
def draftRow (draft : EventDraft) (seq : Int) (ts payloadJson : String) : StoredRow :=
  ⟨seq, ts, draft.nodeId, draft.payload.kindName, payloadJson, kindVersion, none⟩

/-- The append's transaction: the seq it assigns and the tables it commits. -/
def appendTx (store : Store) (draft : EventDraft) (ts : String) :
    Except StorageError (Int × Store) :=
  match store.nextSeq draft.runId with
  | .error e => .error e
  | .ok seq =>
    match draft.payloadJson with
    | none => .error (.serialize draft.runId)
    | some payloadJson =>
      match previousHash sha256Hex store draft seq with
      | .error e => .error e
      | .ok prevHash =>
        let row := draftRow draft seq ts payloadJson
        let eventHash := chainHash sha256Hex (row.fields draft.runId prevHash)
        match store.insert draft.runId { row with eventHash := some eventHash } with
        | .error e => .error e
        | .ok written => .ok (seq, written.setHead draft.runId seq eventHash)

/-- Appends one draft, assigning the next seq of its run.  The seq is read back after the commit. -/
def appendAt (store : Store) (draft : EventDraft) (ts : String) :
    Except StorageError Nat × Store :=
  match appendTx sha256Hex store draft ts with
  | .error e => (.error e, store)
  | .ok (seq, written) => (seqTryFrom draft.runId seq, written)

/-- Deletes every row of a run, and its head with them; answers how many rows. -/
def purgeRun (store : Store) (runId : RunId) : Except StorageError Nat × Store :=
  (.ok (store.rowsOf runId).length,
    ⟨store.events.filter (·.runId ≠ runId), store.runHeads.erase runId⟩)

/-! ## The walk over a store -/

/-- The cells a row's columns are. -/
def StoredRow.cells (row : StoredRow) : Row :=
  let textCell : Option String → Cell := fun value => (value.map .text).getD .null
  ⟨.integer row.seq, .text row.ts, textCell row.nodeId, .text row.kind, .text row.payloadJson,
    .integer row.schemaVersion, textCell row.eventHash⟩

/-- The stored head of a run, as its cells. -/
def Store.headCells (store : Store) (runId : RunId) : Option HeadRow :=
  (store.runHeads[runId]?).map fun head => ⟨.integer head.1, .text head.2⟩

/-- `verify_chain` over the tables. -/
def Store.verify (store : Store) (runId : RunId) : Except StorageError ChainVerification :=
  verifyChain sha256Hex manifestHash runId ((store.ordered runId).map StoredRow.cells)
    (store.headCells runId)

/-! ## Calls -/

inductive Op where
  | append (draft : EventDraft) (ts : String)
  | purge (runId : RunId)

def Op.runId : Op → RunId
  | .append draft _ => draft.runId
  | .purge runId => runId

/-- One transaction of one connection.  A transaction SQLite does not carry out (the lock is busy
    past its timeout, a disk fails) rolls back. -/
structure Call where
  conn : Nat
  op : Op
  carried : Bool := true

/-- What a transaction that rolled back answers. -/
def Op.refused : Op → StorageError
  | .append draft _ => .append draft.runId
  | .purge runId => .read runId

/-- One call: its answer (an append's seq, a purge's rows), and the tables after it. -/
def Store.call (store : Store) (call : Call) : Except StorageError Nat × Store :=
  match call.carried with
  | false => (.error call.op.refused, store)
  | true =>
    match call.op with
    | .append draft ts => appendAt sha256Hex store draft ts
    | .purge runId => purgeRun store runId

/-- A call and its answer. -/
abbrev Answered := Call × Except StorageError Nat

/-- The calls of an interleaving with their answers, and the tables after them. -/
def Store.calls (store : Store) : List Call → List Answered × Store
  | [] => ([], store)
  | call :: rest =>
    let (answer, after) := store.call sha256Hex call
    let (answers, last) := Store.calls after rest
    ((call, answer) :: answers, last)

end

end Yunta.Storage
