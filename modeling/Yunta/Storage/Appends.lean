/-
  Any number of connections, in any order: every run's rows stay gapless and its chain verifies.

  A run's rows hold (`Holds`), say what was written since the run was last purged (`Stores`), and end
  on the run's head: `Kept` is the three at once.  One call keeps it (`call_keeps`), so every
  interleaving does (`calls_keep`), and what the walk and the order of a run are follows from it.
-/
import Yunta.Storage.Store
import Yunta.Storage.Tampering

set_option linter.unusedVariables false

namespace Yunta.Storage

open Framing (Bytes)

/-! ## What an interleaving wrote -/

/-- One event a connection appended. -/
structure Written where
  conn : Nat
  draft : EventDraft
  ts : String

/-- What a run holds after one answered call more: an append adds its event, a purge leaves none,
    and a call that failed changes nothing. -/
def keep (runId : RunId) (ws : List Written) : Answered → List Written
  | (_, .error _) => ws
  | (⟨conn, .append draft ts, _⟩, .ok _) =>
    if draft.runId = runId then ws ++ [⟨conn, draft, ts⟩] else ws
  | (⟨_, .purge purged, _⟩, .ok _) => if purged = runId then [] else ws

/-- The events a run was given since it was last purged, oldest first. -/
def kept (runId : RunId) (trace : List Answered) : List Written := trace.foldl (keep runId) []

/-- Every append of an interleaving to a run, in order. -/
def appends (runId : RunId) (calls : List Call) : List Written :=
  calls.filterMap fun call =>
    match call.op with
    | .append draft ts => if draft.runId = runId then some ⟨call.conn, draft, ts⟩ else none
    | .purge _ => none

/-- A row is the event a connection wrote. -/
structure Stores (row : StoredRow) (w : Written) : Prop where
  ts : row.ts = w.ts
  nodeId : row.nodeId = w.draft.nodeId
  kind : row.kind = w.draft.payload.kindName
  payloadJson : some row.payloadJson = w.draft.payloadJson
  schemaVersion : row.schemaVersion = kindVersion

/-! ## Positions of rows that hold -/

section
variable {sha256Hex : Bytes → String} {manifestHash : String → Option String} {runId : RunId}

theorem Holds.seqs {verified : Nat} {prevHash : Option String} {rows : List StoredRow}
    (h : Holds sha256Hex manifestHash runId verified prevHash rows) :
    rows.map (·.seq) = (List.range rows.length).map fun i => ((verified + i + 1 : Nat) : Int) := by
  induction h with
  | nil => rfl
  | @cons verified prevHash row rest a hseq ha hhash hrest ih =>
    rw [List.map_cons, ih, List.length_cons, List.range_succ_eq_map, List.map_cons, List.map_map]
    have htail : ((List.range rest.length).map fun i => ((verified + 1 + i + 1 : Nat) : Int)) =
        (List.range rest.length).map ((fun i => ((verified + i + 1 : Nat) : Int)) ∘ Nat.succ) := by
      refine List.map_congr_left fun i _ => ?_
      show ((verified + 1 + i + 1 : Nat) : Int) = ((verified + (i + 1) + 1 : Nat) : Int)
      congr 1
      omega
    rw [htail, hseq]
    rfl

/-- Rows that hold are in the order the walk reads them. -/
theorem Holds.sorted {verified : Nat} {prevHash : Option String} {rows : List StoredRow}
    (h : Holds sha256Hex manifestHash runId verified prevHash rows) :
    rows.Pairwise fun r r' => r.seq ≤ r'.seq := by
  have hseqs : (rows.map (·.seq)).Pairwise (· ≤ ·) := by
    rw [h.seqs, List.pairwise_map]
    refine List.pairwise_lt_range.imp ?_
    intro i j hij
    omega
  exact List.pairwise_map.mp hseqs

/-- The highest seq of rows that hold is their number. -/
theorem Holds.maxSeq {prevHash : Option String} {rows : List StoredRow}
    (h : Holds sha256Hex manifestHash runId 0 prevHash rows) :
    (rows.map (·.seq)).max?.getD 0 = (rows.length : Int) := by
  rw [h.seqs]
  rcases rows with _ | ⟨row, rest⟩
  · rfl
  · have hmax : ((List.range (row :: rest).length).map fun i => ((0 + i + 1 : Nat) : Int)).max? =
        some (((row :: rest).length : Nat) : Int) := by
      rw [List.max?_eq_some_iff]
      constructor
      · exact List.mem_map.mpr ⟨rest.length, by simp, by simp⟩
      · intro seq hseq
        obtain ⟨i, hi, rfl⟩ := List.mem_map.mp hseq
        have hlt := List.mem_range.mp hi
        omega
    rw [hmax]
    rfl

/-- The row at the last seq is the one whose hash the walk ends with. -/
theorem Holds.find_last {verified : Nat} {prevHash : Option String} {row : StoredRow}
    {rest : List StoredRow}
    (h : Holds sha256Hex manifestHash runId verified prevHash (row :: rest)) :
    ∃ last, (row :: rest).find? (·.seq = ((verified + (rest.length + 1) : Nat) : Int)) = some last ∧
      last.eventHash = lastHash prevHash (row :: rest) := by
  induction rest generalizing row verified prevHash with
  | nil =>
    cases h with
    | cons hseq _ _ _ => exact ⟨row, by simp [hseq], rfl⟩
  | cons next more ih =>
    cases h with
    | @cons _ _ _ _ a hseq ha hhash hrest =>
      obtain ⟨last, hfind, hlast⟩ := ih hrest
      refine ⟨last, ?_, hlast⟩
      have hne : row.seq ≠ ((verified + ((next :: more).length + 1) : Nat) : Int) := by
        rw [hseq, List.length_cons]
        omega
      rw [List.find?_cons_of_neg (by simpa using hne)]
      have hsum : verified + ((next :: more).length + 1) = verified + 1 + (more.length + 1) := by
        rw [List.length_cons]
        omega
      rw [hsum]
      exact hfind

/-- One row more, at the next seq and under its link from the last hash. -/
theorem Holds.snoc {verified : Nat} {prevHash : Option String} {rows : List StoredRow}
    {row : StoredRow} {a : String}
    (h : Holds sha256Hex manifestHash runId verified prevHash rows)
    (hseq : row.seq = ((verified + rows.length : Nat) : Int) + 1)
    (ha : anchor sha256Hex manifestHash runId (lastHash prevHash rows) row = .ok a)
    (hhash : row.eventHash = some (link sha256Hex runId a row)) :
    Holds sha256Hex manifestHash runId verified prevHash (rows ++ [row]) := by
  induction h with
  | nil verified prevHash => exact .cons (by simpa using hseq) ha hhash (.nil _ _)
  | @cons verified prevHash first rest b hfirst hb hlink hrest ih =>
    refine .cons hfirst hb hlink (ih ?_ ha)
    rw [hseq, List.length_cons]
    congr 2
    omega

theorem lastHash_append (prevHash : Option String) (rows : List StoredRow) (row : StoredRow) :
    lastHash prevHash (rows ++ [row]) = row.eventHash := by
  induction rows generalizing prevHash with
  | nil => rfl
  | cons first rest ih => exact ih first.eventHash

/-- Every row that holds has a hash, so the walk ends with one when there is a row. -/
theorem Holds.lastHash_some {verified : Nat} {prevHash : Option String} {row : StoredRow}
    {rest : List StoredRow}
    (h : Holds sha256Hex manifestHash runId verified prevHash (row :: rest)) :
    ∃ hash, lastHash prevHash (row :: rest) = some hash := by
  induction rest generalizing row verified prevHash with
  | nil =>
    cases h with
    | cons _ _ hhash _ => exact ⟨_, hhash⟩
  | cons next more ih =>
    cases h with
    | cons _ _ _ hrest => exact ih hrest

/-! ## What a transaction does to the tables -/

/-- A run's rows after one row more. -/
theorem rowsOf_snoc (store : Store) (heads : OrdMap RunId (Int × String)) (r : RunId)
    (row : StoredRow) :
    Store.rowsOf ⟨store.events ++ [⟨r, row⟩], heads⟩ runId =
      if r = runId then store.rowsOf runId ++ [row] else store.rowsOf runId := by
  simp only [Store.rowsOf, List.filter_append, List.map_append]
  by_cases h : r = runId
  · simp [h]
  · simp [h]

theorem rowsOf_purge (store : Store) (heads : OrdMap RunId (Int × String)) (r : RunId) :
    Store.rowsOf ⟨store.events.filter (·.runId ≠ r), heads⟩ runId =
      if r = runId then [] else store.rowsOf runId := by
  simp only [Store.rowsOf, List.filter_filter]
  by_cases h : r = runId
  · subst h
    simp
  · rw [if_neg h]
    congr 1
    refine List.filter_congr fun e _ => ?_
    by_cases he : e.runId = runId
    · simp [he, Ne.symm h]
    · simp [he]

/-- A row is inserted where no row has its key. -/
theorem insert_free {store : Store} {row : StoredRow}
    (h : ∀ r ∈ store.rowsOf runId, r.seq ≠ row.seq) :
    store.insert runId row = .ok ⟨store.events ++ [⟨runId, row⟩], store.runHeads⟩ := by
  have hany : ¬ (store.rowsOf runId).any (·.seq = row.seq) := by
    rw [List.any_eq_true]
    rintro ⟨r, hr, hseq⟩
    exact h r hr (of_decide_eq_true hseq)
  exact if_neg hany

/-- **What a committed append did**: the next seq of the run, and one row under the link from the
    hash before it, which the head then names. -/
theorem appendTx_ok {store after : Store} {draft : EventDraft} {ts : String} {seq : Int}
    (h : appendTx sha256Hex store draft ts = .ok (seq, after)) :
    ∃ payloadJson prevHash, draft.payloadJson = some payloadJson ∧
      store.nextSeq draft.runId = .ok seq ∧
      previousHash sha256Hex store draft seq = .ok prevHash ∧
      after = ⟨store.events ++ [⟨draft.runId, { draftRow draft seq ts payloadJson with
            eventHash :=
              some (link sha256Hex draft.runId prevHash (draftRow draft seq ts payloadJson)) }⟩],
          store.runHeads.insert draft.runId
            (seq, link sha256Hex draft.runId prevHash (draftRow draft seq ts payloadJson))⟩ := by
  unfold appendTx at h
  split at h
  · cases h
  · next seq' hseq =>
    split at h
    · cases h
    · next payloadJson hjson =>
      split at h
      · cases h
      · next prevHash hprev =>
        dsimp only at h
        split at h
        · cases h
        · next written hinsert =>
          obtain ⟨rfl, rfl⟩ := Prod.mk.inj (Except.ok.inj h)
          refine ⟨payloadJson, prevHash, hjson, hseq, hprev, ?_⟩
          unfold Store.insert at hinsert
          split at hinsert
          · cases hinsert
          · rw [← Except.ok.inj hinsert]
            rfl

/-! ## One call -/

/-- What a store keeps of one run: rows that hold, that are the events written, and whose last one
    the head names. -/
structure Kept (sha256Hex : Bytes → String) (manifestHash : String → Option String) (runId : RunId)
    (store : Store) (ws : List Written) : Prop where
  holds : Holds sha256Hex manifestHash runId 0 none (store.rowsOf runId)
  stores : List.Forall₂ Stores (store.rowsOf runId) ws
  head : store.runHeads[runId]? =
    (lastHash none (store.rowsOf runId)).map fun hash => (((store.rowsOf runId).length : Int), hash)

/-- A payload's JSON says what its manifest hash is. -/
def EventDraft.Readable (manifestHash : String → Option String) (draft : EventDraft) : Prop :=
  ∀ p payloadJson, draft.payload = .run (.created p) → draft.payloadJson = some payloadJson →
    manifestHash payloadJson = some p.manifestHash

/-- The hash an append chains onto is the one the walk anchors its row on. -/
theorem anchor_of_previousHash {store : Store} {draft : EventDraft} {seq : Int}
    {ts payloadJson prevHash : String} {eventHash : Option String}
    (hholds : Holds sha256Hex manifestHash draft.runId 0 none (store.rowsOf draft.runId))
    (hread : draft.Readable manifestHash) (hjson : draft.payloadJson = some payloadJson)
    (hseq : seq = (store.rowsOf draft.runId).length + 1)
    (h : previousHash sha256Hex store draft seq = .ok prevHash) :
    anchor sha256Hex manifestHash draft.runId (lastHash none (store.rowsOf draft.runId))
      { draftRow draft seq ts payloadJson with eventHash } = .ok prevHash := by
  unfold previousHash Store.hashAt at h
  rcases hrows : store.rowsOf draft.runId with _ | ⟨row, rest⟩
  · -- the first row: both read the manifest hash of `run_created`
    rw [hrows] at hseq
    rw [if_pos (by simpa using hseq)] at h
    split at h
    · next p hp =>
      rw [← Except.ok.inj h]
      show genesisFromFirstRow sha256Hex manifestHash draft.runId _ = _
      have hkind : draft.payload.kindName = "run_created" := by rw [hp]; rfl
      simp [genesisFromFirstRow, draftRow, hkind, hread p payloadJson hp hjson]
    · cases h
  · -- any other row: the stored hash of the row before it
    rw [hrows] at hseq hholds h
    obtain ⟨last, hfind, hlast⟩ := hholds.find_last
    obtain ⟨hash, hhash⟩ := hholds.lastHash_some
    have hne : seq ≠ 1 := by
      rw [hseq, List.length_cons]
      omega
    have hprev : seq - 1 = ((0 + (rest.length + 1) : Nat) : Int) := by
      rw [hseq, List.length_cons]
      omega
    rw [if_neg hne, hprev, hfind] at h
    dsimp only at h
    rw [hlast, hhash] at h
    rw [hhash, ← Except.ok.inj h]
    rfl

/-- A committed append keeps its run, with its event at the end. -/
theorem append_keeps {store after : Store} {ws : List Written} {draft : EventDraft} {ts : String}
    {seq : Int} (conn : Nat)
    (hkept : Kept sha256Hex manifestHash draft.runId store ws)
    (hread : draft.Readable manifestHash)
    (h : appendTx sha256Hex store draft ts = .ok (seq, after)) :
    Kept sha256Hex manifestHash draft.runId after (ws ++ [⟨conn, draft, ts⟩]) ∧ 0 < seq := by
  obtain ⟨payloadJson, prevHash, hjson, hnext, hprev, rfl⟩ := appendTx_ok h
  have hseq : seq = (store.rowsOf draft.runId).length + 1 := by
    unfold Store.nextSeq at hnext
    rw [hkept.holds.maxSeq] at hnext
    dsimp only at hnext
    split at hnext
    · exact (Except.ok.inj hnext).symm
    · cases hnext
  refine ⟨⟨?_, ?_, ?_⟩, by omega⟩
  · rw [rowsOf_snoc, if_pos rfl]
    refine hkept.holds.snoc ?_ (anchor_of_previousHash hkept.holds hread hjson hseq hprev) rfl
    show seq = _
    rw [hseq, Nat.zero_add]
  · rw [rowsOf_snoc, if_pos rfl]
    exact List.rel_append hkept.stores
      (.cons ⟨rfl, rfl, rfl, hjson.symm, rfl⟩ .nil)
  · rw [rowsOf_snoc, if_pos rfl, lastHash_append, List.length_append]
    show (store.runHeads.insert draft.runId _)[draft.runId]? = _
    rw [OrdMap.getElem?_insert_eq, if_pos rfl, hseq]
    rfl

/-- **A call changes no other run**: neither its rows nor its head. -/
theorem call_frame {store : Store} {call : Call} (hother : call.op.runId ≠ runId) :
    (store.call sha256Hex call).2.rowsOf runId = store.rowsOf runId ∧
      (store.call sha256Hex call).2.runHeads[runId]? = store.runHeads[runId]? := by
  rcases call with ⟨conn, op, carried⟩
  cases carried with
  | false => exact ⟨rfl, rfl⟩
  | true =>
    cases op with
    | append draft ts =>
      have hne : draft.runId ≠ runId := hother
      show (appendAt sha256Hex store draft ts).2.rowsOf runId = _ ∧
        (appendAt sha256Hex store draft ts).2.runHeads[runId]? = _
      unfold appendAt
      split
      · exact ⟨rfl, rfl⟩
      · next seq after htx =>
        obtain ⟨payloadJson, prevHash, -, -, -, rfl⟩ := appendTx_ok htx
        constructor
        · rw [rowsOf_snoc, if_neg hne]
        · rw [OrdMap.getElem?_insert_eq, if_neg hne]
    | purge purged =>
      have hne : purged ≠ runId := hother
      constructor
      · show Store.rowsOf ⟨store.events.filter (·.runId ≠ purged), _⟩ runId = _
        rw [rowsOf_purge store, if_neg hne]
      · show (store.runHeads.erase purged)[runId]? = _
        rw [OrdMap.getElem?_erase_eq, if_neg hne]

/-- A call on another run adds no event to a run and takes none. -/
theorem keep_other {call : Call} (hother : call.op.runId ≠ runId) (ws : List Written)
    (answer : Except StorageError Nat) : keep runId ws (call, answer) = ws := by
  rcases call with ⟨conn, op, carried⟩
  cases answer with
  | error e => rfl
  | ok n =>
    cases op with
    | append draft ts => exact if_neg hother
    | purge purged => exact if_neg hother

/-- What a draft a call appends is known to satisfy. -/
def Call.Readable (manifestHash : String → Option String) (call : Call) : Prop :=
  ∀ draft ts, call.op = .append draft ts → draft.Readable manifestHash

/-- **A call keeps every run.** -/
theorem call_keeps {store : Store} {ws : List Written} {call : Call}
    (hread : call.Readable manifestHash) (hkept : Kept sha256Hex manifestHash runId store ws) :
    Kept sha256Hex manifestHash runId (store.call sha256Hex call).2
      (keep runId ws (call, (store.call sha256Hex call).1)) := by
  by_cases hrun : call.op.runId = runId
  · rcases call with ⟨conn, op, carried⟩
    subst hrun
    cases carried with
    | false => exact hkept
    | true =>
      cases op with
      | append draft ts =>
        show Kept sha256Hex manifestHash draft.runId (appendAt sha256Hex store draft ts).2
          (keep draft.runId ws (_, (appendAt sha256Hex store draft ts).1))
        unfold appendAt
        split
        · exact hkept
        · next seq after htx =>
          obtain ⟨hafter, hpos⟩ := append_keeps conn hkept (hread draft ts rfl) htx
          rw [seqTryFrom_pos hpos]
          show Kept sha256Hex manifestHash draft.runId after
            (if draft.runId = draft.runId then ws ++ [⟨conn, draft, ts⟩] else ws)
          rw [if_pos rfl]
          exact hafter
      | purge purged =>
        show Kept sha256Hex manifestHash purged
          ⟨store.events.filter (·.runId ≠ purged), store.runHeads.erase purged⟩
          (if purged = purged then [] else ws)
        have hrows : Store.rowsOf ⟨store.events.filter (·.runId ≠ purged),
            store.runHeads.erase purged⟩ purged = [] := by
          rw [rowsOf_purge store, if_pos rfl]
        rw [if_pos rfl]
        refine ⟨?_, ?_, ?_⟩
        · rw [hrows]
          exact .nil _ _
        · rw [hrows]
          exact .nil
        · rw [hrows, OrdMap.getElem?_erase_eq, if_pos rfl]
          rfl
  · obtain ⟨hrows, hhead⟩ := @call_frame sha256Hex runId store call hrun
    rw [keep_other hrun]
    refine ⟨?_, ?_, ?_⟩
    · rw [hrows]
      exact hkept.holds
    · rw [hrows]
      exact hkept.stores
    · rw [hhead, hrows]
      exact hkept.head

/-! ## Every interleaving -/

/-- **Every interleaving keeps every run.** -/
theorem calls_keep {calls : List Call} {store : Store} {ws : List Written}
    (hread : ∀ call ∈ calls, call.Readable manifestHash)
    (hkept : Kept sha256Hex manifestHash runId store ws) :
    Kept sha256Hex manifestHash runId (store.calls sha256Hex calls).2
      ((store.calls sha256Hex calls).1.foldl (keep runId) ws) := by
  induction calls generalizing store ws with
  | nil => exact hkept
  | cons call rest ih =>
    exact ih (fun c hc => hread c (List.mem_cons_of_mem _ hc))
      (call_keeps (hread call (List.mem_cons_self ..)) hkept)

theorem empty_keeps : Kept sha256Hex manifestHash runId Store.empty [] where
  holds := .nil _ _
  stores := .nil
  head := by
    show (∅ : OrdMap RunId (Int × String))[runId]? = none
    simp

/-- What a run was given is, in order, part of what was appended to it. -/
theorem kept_sublist {calls : List Call} {store : Store} {ws : List Written} :
    ((store.calls sha256Hex calls).1.foldl (keep runId) ws).Sublist
      (ws ++ appends runId calls) := by
  induction calls generalizing store ws with
  | nil => simp [Store.calls, appends]
  | cons call more ih =>
    have hstep : (keep runId ws (call, (store.call sha256Hex call).1)).Sublist
        (ws ++ appends runId [call]) := by
      rcases call with ⟨conn, op, carried⟩
      cases (store.call sha256Hex ⟨conn, op, carried⟩).1 with
      | error e => exact List.sublist_append_left ..
      | ok n =>
        cases op with
        | append draft ts => by_cases h : draft.runId = runId <;> simp [keep, appends, h]
        | purge purged => by_cases h : purged = runId <;> simp [keep, appends, h]
    have hsplit : appends runId (call :: more) = appends runId [call] ++ appends runId more := by
      simp only [appends, ← List.filterMap_append, List.singleton_append]
    rw [hsplit, ← List.append_assoc]
    exact ih.trans (hstep.append_right _)

/-! ## What the order and the walk of a run are -/

theorem Kept.ordered {store : Store} {ws : List Written}
    (h : Kept sha256Hex manifestHash runId store ws) : store.ordered runId = store.rowsOf runId :=
  List.Pairwise.insertionSort_eq h.holds.sorted

/-- A row of this binary's version reads back as it was stored. -/
theorem storedRow_cells {row : StoredRow} (h : row.schemaVersion = kindVersion) :
    storedRow row.cells = some row := by
  have hversion : (Cell.integer (row.schemaVersion : Int)).asU32 = some row.schemaVersion := by
    rw [h]
    rfl
  have htext (value : Option String) :
      ((value.map Cell.text).getD .null).asOptionalText = some value := by
    cases value <;> rfl
  simp only [storedRow, StoredRow.cells, hversion, htext]
  rfl

theorem stores_version {rows : List StoredRow} {ws : List Written} (h : List.Forall₂ Stores rows ws) :
    ∀ row ∈ rows, row.schemaVersion = kindVersion := by
  induction h with
  | nil => exact fun row hrow => absurd hrow List.not_mem_nil
  | cons hfirst _ ih =>
    intro row hrow
    rcases List.mem_cons.mp hrow with rfl | hrow
    · exact hfirst.schemaVersion
    · exact ih row hrow

theorem Kept.readBack {store : Store} {ws : List Written}
    (h : Kept sha256Hex manifestHash runId store ws) :
    ((store.rowsOf runId).map StoredRow.cells).map storedRow = (store.rowsOf runId).map some := by
  rw [List.map_map]
  exact List.map_congr_left fun row hrow => storedRow_cells (stores_version h.stores row hrow)

/-- The walk over a run that was written to. -/
theorem Kept.verify {store : Store} {ws : List Written}
    (h : Kept sha256Hex manifestHash runId store ws) (hws : ws ≠ []) :
    store.verify sha256Hex manifestHash runId = .ok (.intact ws.length) := by
  have hlen : (store.rowsOf runId).length = ws.length := h.stores.length_eq
  have hpos : 0 < ws.length := List.length_pos_iff.mpr hws
  unfold Store.verify verifyChain
  rw [h.ordered]
  refine walk_intact.mpr ⟨store.rowsOf runId, h.readBack, h.holds, ?_, hpos, ?_⟩
  · rw [List.length_map, hlen, Nat.zero_add]
  · rcases hrows : store.rowsOf runId with _ | ⟨row, rest⟩
    · rw [hrows] at hlen
      exact absurd hlen.symm (Nat.ne_of_gt hpos)
    · have hholds := h.holds
      rw [hrows] at hholds
      obtain ⟨hash, hhash⟩ := hholds.lastHash_some
      refine ⟨hash, ?_, hhash⟩
      rw [Store.headCells, h.head, hrows, hhash, ← hlen, hrows]
      rfl

theorem Kept.verify_empty {store : Store}
    (h : Kept sha256Hex manifestHash runId store []) :
    store.verify sha256Hex manifestHash runId = .error (.verifyUnknownRun runId) := by
  have hrows : store.rowsOf runId = [] := List.forall₂_nil_right_iff.mp h.stores
  unfold Store.verify verifyChain
  rw [h.ordered, hrows]
  rfl

/-- The head of a run names its last row. -/
theorem Kept.names_last {store : Store} {ws : List Written}
    (h : Kept sha256Hex manifestHash runId store ws) :
    store.runHeads[runId]? = (store.rowsOf runId).getLast?.bind fun row =>
      row.eventHash.map fun hash => (row.seq, hash) := by
  rw [h.head]
  rcases List.eq_nil_or_concat (store.rowsOf runId) with hrows | ⟨rows, last, hrows⟩
  · rw [hrows]
    rfl
  · have hseqs := h.holds.seqs
    rw [List.concat_eq_append] at hrows
    rw [hrows, List.map_append, List.length_append, List.length_singleton, List.range_succ,
      List.map_append] at hseqs
    have hlast : last.seq = ((rows.length + 1 : Nat) : Int) := by
      have htail := (List.append_inj' hseqs rfl).2
      simpa using htail
    rw [hrows, lastHash_append, List.getLast?_append, List.length_append, List.length_singleton]
    simp [hlast]

/-- **An append is refused for three reasons only**: its payload does not serialize, a run that has
    no rows is not opened by `run_created`, or the run has used up the `i64`s. -/
theorem append_commits {store : Store} {ws : List Written} {draft : EventDraft} {ts : String}
    {payloadJson : String} (h : Kept sha256Hex manifestHash draft.runId store ws)
    (hjson : draft.payloadJson = some payloadJson)
    (hbirth : ws = [] → ∃ p, draft.payload = .run (.created p))
    (hroom : ws.length + 1 < 2 ^ 63) :
    (appendAt sha256Hex store draft ts).1 = .ok (ws.length + 1) := by
  have hlen : (store.rowsOf draft.runId).length = ws.length := h.stores.length_eq
  have hnext : store.nextSeq draft.runId = .ok ((ws.length : Int) + 1) := by
    unfold Store.nextSeq
    rw [h.holds.maxSeq, hlen]
    exact if_pos (by omega)
  have hprev : ∃ prevHash, previousHash sha256Hex store draft ((ws.length : Int) + 1) =
      .ok prevHash := by
    unfold previousHash Store.hashAt
    rcases ws with _ | ⟨w, more⟩
    · obtain ⟨p, hp⟩ := hbirth rfl
      exact ⟨_, by rw [hp]; rfl⟩
    · rcases hrows : store.rowsOf draft.runId with _ | ⟨row, rest⟩
      · rw [hrows] at hlen
        cases hlen
      · have hholds := h.holds
        rw [hrows] at hholds hlen
        obtain ⟨last, hfind, -⟩ := hholds.find_last
        have hlast : (((w :: more).length : Nat) : Int) + 1 - 1 =
            ((0 + (rest.length + 1) : Nat) : Int) := by
          rw [← hlen, List.length_cons]
          omega
        rw [if_neg (by rw [List.length_cons]; omega), hlast, hfind]
        exact ⟨_, rfl⟩
  obtain ⟨prevHash, hprev⟩ := hprev
  -- every stored seq is below the next one, so its key is free
  have hfree : ∀ row ∈ store.rowsOf draft.runId, row.seq ≠ (ws.length : Int) + 1 := by
    intro row hrow
    have hmem : row.seq ∈ (store.rowsOf draft.runId).map (·.seq) := List.mem_map.mpr ⟨row, hrow, rfl⟩
    rw [h.holds.seqs] at hmem
    obtain ⟨i, hi, hseq⟩ := List.mem_map.mp hmem
    have hlt := List.mem_range.mp hi
    omega
  unfold appendAt appendTx
  rw [hnext, hjson]
  dsimp only
  rw [hprev]
  dsimp only
  rw [insert_free hfree]
  exact seqTryFrom_pos (by omega)

/-! ## The statement -/

/-- What an interleaving leaves of one run. -/
structure Sound (sha256Hex : Bytes → String) (manifestHash : String → Option String)
    (runId : RunId) (calls : List Call) (trace : List Answered) (store : Store) : Prop where
  /-- The seqs are `1..n`, `n` the number of events written since the run was last purged. -/
  seqs : (store.ordered runId).map (·.seq) =
    (List.range (kept runId trace).length).map fun i => ((i + 1 : Nat) : Int)
  /-- The rows are those events, in order. -/
  stores : List.Forall₂ Stores (store.ordered runId) (kept runId trace)
  /-- Each connection's events are in the order it appended them. -/
  order : ∀ conn, ((kept runId trace).filter (·.conn = conn)).Sublist
    ((appends runId calls).filter (·.conn = conn))
  /-- The chain of a run that was written to verifies, at that length. -/
  intact : kept runId trace ≠ [] →
    store.verify sha256Hex manifestHash runId = .ok (.intact (kept runId trace).length)
  /-- A run with no rows has nothing to verify. -/
  unknown : kept runId trace = [] →
    store.verify sha256Hex manifestHash runId = .error (.verifyUnknownRun runId)
  /-- The head names the last row. -/
  head : store.runHeads[runId]? = (store.ordered runId).getLast?.bind fun row =>
    row.eventHash.map fun hash => (row.seq, hash)
  /-- A call on any other run changes neither the rows nor the head. -/
  frame : ∀ call : Call, call.op.runId ≠ runId →
    (store.call sha256Hex call).2.ordered runId = store.ordered runId ∧
      (store.call sha256Hex call).2.runHeads[runId]? = store.runHeads[runId]?

/-- **Appends stay gapless and verifiable under any interleaving** of any connections' appends and
    purges, for every run. -/
theorem interleaving_sound (calls : List Call)
    (hread : ∀ call ∈ calls, call.Readable manifestHash) (runId : RunId) :
    Sound sha256Hex manifestHash runId calls (Store.empty.calls sha256Hex calls).1
      (Store.empty.calls sha256Hex calls).2 := by
  have hkept : Kept sha256Hex manifestHash runId (Store.empty.calls sha256Hex calls).2
      (kept runId (Store.empty.calls sha256Hex calls).1) := calls_keep hread empty_keeps
  have hlen := hkept.stores.length_eq
  refine ⟨?_, ?_, ?_, hkept.verify, ?_, ?_, ?_⟩
  · rw [hkept.ordered, hkept.holds.seqs, hlen]
    simp only [Nat.zero_add]
  · rw [hkept.ordered]
    exact hkept.stores
  · intro conn
    exact kept_sublist.filter _
  · intro hnone
    rw [hnone] at hkept
    exact hkept.verify_empty
  · rw [hkept.ordered]
    exact hkept.names_last
  · intro call hother
    obtain ⟨hrows, hhead⟩ := @call_frame sha256Hex runId _ call hother
    exact ⟨by unfold Store.ordered; rw [hrows], hhead⟩

end

/-! ## Two connections and two runs -/

/-- The birth of a run, as a connection appends it. -/
def birth (conn : Nat) (runId : RunId) : Call where
  conn
  op := .append
    ⟨runId, none, .run (.created ⟨sampleManifest, none, "full", none, [], false⟩),
      some samplePayload⟩ "2024-01-01T00:00:00+00:00"

theorem birth_readable (conn : Nat) (runId : RunId) :
    (birth conn runId).Readable sampleManifestHash := by
  intro draft ts hop p payloadJson hp hjson
  obtain ⟨rfl, -⟩ := Op.append.inj hop
  obtain rfl := RunEvent.created.inj (EventPayload.run.inj hp)
  obtain rfl := Option.some.inj hjson
  exact if_pos rfl

/-- Two runs born by two connections, the second of them purged by the first's. -/
theorem interleaving_sound_two :
    let calls := [birth 0 "r1", birth 1 "r2", ⟨0, .purge "r2", true⟩]
    ∀ runId, Sound sampleHash sampleManifestHash runId calls (Store.empty.calls sampleHash calls).1
      (Store.empty.calls sampleHash calls).2 := by
  intro calls runId
  refine interleaving_sound calls ?_ runId
  intro call hcall
  rcases List.mem_cons.mp hcall with rfl | hcall
  · exact birth_readable 0 "r1"
  · rcases List.mem_cons.mp hcall with rfl | hcall
    · exact birth_readable 1 "r2"
    · obtain rfl := List.mem_singleton.mp hcall
      intro draft ts hop
      cases hop

/-- A purged run holds no row and does not verify: there is nothing to walk. -/
theorem purged_unknown :
    let calls := [birth 0 "r1", ⟨0, .purge "r1", true⟩]
    let store := (Store.empty.calls sampleHash calls).2
    store.ordered "r1" = [] ∧
      store.verify sampleHash sampleManifestHash "r1" ≠ .ok (.intact 0) := by
  decide +kernel

end Yunta.Storage
