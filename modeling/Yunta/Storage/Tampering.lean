/-
  The event chain shows every tampering with the stored rows.

  A walk that answers `intact` has recomputed every stored hash (`Holds`) and ended on the head.
  Two such walks under one head have the same length and the same tip, and the bytes hashed into a
  link say what the link before was and what the row's fields are (`input_inj`): so the tip gives
  back every row, from the head to the genesis (`HashChain.rows_of_tip`).

  The link is blind to one thing: an absent node id is hashed as the empty field.  Rows that differ
  in nothing else (`SameRow`) are one to the walk (`walk_sameRow`), and all others are told apart
  (`tampering_shows`).
-/
import Yunta.Storage.Walk

set_option linter.unusedVariables false

namespace Yunta.Storage

open Framing (Bytes utf8 frames utf8_inj frames_inj)

/-! ## What a link says -/

/-- Two rows whose links hash the same fields and were stored alike: they differ, if at all, in an
    absent and an empty node id. -/
structure SameFields (r r' : StoredRow) : Prop where
  seq : r.seq = r'.seq
  ts : r.ts = r'.ts
  nodeId : r.nodeId.getD "" = r'.nodeId.getD ""
  kind : r.kind = r'.kind
  payloadJson : r.payloadJson = r'.payloadJson
  schemaVersion : r.schemaVersion = r'.schemaVersion
  eventHash : r.eventHash = r'.eventHash

/-- **The bytes hashed say what was hashed**: hashes before of one length, and the framed fields. -/
theorem input_inj {f g : ChainHashFields} (hlen : f.prevHash.utf8ByteSize = g.prevHash.utf8ByteSize)
    (h : f.input = g.input) : f.prevHash = g.prevHash ∧ f.framed = g.framed := by
  obtain ⟨hprev, hframes⟩ := List.append_inj h hlen
  exact ⟨utf8_inj hprev, frames_inj hframes⟩

section
variable {sha256Hex : Bytes → String} {manifestHash : String → Option String} {runId : RunId}

/-! ## The tip says what the rows are -/

/-- Every anchor a chain computes a link from is a hash. -/
theorem linked_anchor {a : String} {rows : List StoredRow} (ha : ∃ bytes, a = sha256Hex bytes) :
    ∀ p ∈ HashChain.linked (link sha256Hex runId) a rows, ∃ bytes, p.1 = sha256Hex bytes := by
  induction rows generalizing a with
  | nil => exact fun p hp => absurd hp (List.not_mem_nil)
  | cons row rest ih =>
    intro p hp
    rcases List.mem_cons.mp hp with rfl | hp
    · exact ha
    · exact ih ⟨_, rfl⟩ p hp

/-- The genesis of a run is a hash. -/
theorem genesis_hash {row : StoredRow} {a : String}
    (h : anchor sha256Hex manifestHash runId none row = .ok a) : ∃ bytes, a = sha256Hex bytes := by
  unfold anchor genesisFromFirstRow at h
  dsimp only at h
  split at h
  · cases h
  · split at h
    · cases h; exact ⟨_, rfl⟩
    · cases h

variable (sha256Hex manifestHash runId)

/-- Every byte string the walk hashes into a link, after the hash before the rows still to read. -/
def hashedFrom : Option String → List Row → List Bytes
  | _, [] => []
  | prevHash, row :: rest =>
    match storedRow row with
    | none => []
    | some stored =>
      match anchor sha256Hex manifestHash runId prevHash stored with
      | .error _ => []
      | .ok a => (stored.fields runId a).input :: hashedFrom stored.eventHash rest

/-- Every byte string a walk over `rows` hashes into a link. -/
def hashed (rows : List Row) : List Bytes := hashedFrom sha256Hex manifestHash runId none rows

variable {sha256Hex manifestHash runId}

/-- **A walk that holds is a chain** from its first row's anchor: each link computed is the hash
    stored, the last one is the walk's, and what the walk hashes is what the links are computed
    from. -/
theorem Holds.chained {verified : Nat} {prevHash : Option String} {row : StoredRow}
    {rest : List StoredRow}
    (h : Holds sha256Hex manifestHash runId verified prevHash (row :: rest)) :
    ∃ a, anchor sha256Hex manifestHash runId prevHash row = .ok a ∧
      (∀ p ∈ HashChain.linked (link sha256Hex runId) a (row :: rest),
        p.2.eventHash = some (link sha256Hex runId p.1 p.2)) ∧
      lastHash prevHash (row :: rest) =
        some (HashChain.tip (link sha256Hex runId) a (row :: rest)) ∧
      ∀ rows : List Row, rows.map storedRow = (row :: rest).map some →
        hashedFrom sha256Hex manifestHash runId prevHash rows =
          (HashChain.linked (link sha256Hex runId) a (row :: rest)).map fun p =>
            (p.2.fields runId p.1).input := by
  induction rest generalizing row verified prevHash with
  | nil =>
    cases h with
    | @cons _ _ _ _ a hseq ha hhash hrest =>
      refine ⟨a, ha, ?_, hhash, ?_⟩
      · intro p hp
        rw [List.mem_singleton.mp hp]
        exact hhash
      · intro rows hrows
        obtain ⟨cells, more, rfl, hr, hmore⟩ := List.map_eq_cons_iff.mp hrows
        obtain rfl : more = [] := by simpa using hmore
        simp only [hashedFrom, hr, ha]
        rfl
  | cons next more ih =>
    cases h with
    | @cons _ _ _ _ a hseq ha hhash hrest =>
      -- the next row is anchored on this one's hash, which is its link
      rw [hhash] at hrest
      obtain ⟨b, hb, hlinks, hlast, hhashed⟩ := ih hrest
      obtain rfl : link sha256Hex runId a row = b := Except.ok.inj hb
      refine ⟨a, ha, ?_, ?_, ?_⟩
      · intro p hp
        rcases List.mem_cons.mp hp with rfl | hp
        · exact hhash
        · exact hlinks p hp
      · show lastHash row.eventHash (next :: more) = _
        rw [hhash]
        exact hlast
      · intro rows hrows
        obtain ⟨cells, others, rfl, hr, hothers⟩ := List.map_eq_cons_iff.mp hrows
        simp only [hashedFrom, hr, ha, hhash, hhashed others hothers]
        rfl

/-- Where the hash tells apart what two walks hash, one link comes of one anchor and one row. -/
theorem separates {a b : String} {rows rows' : List StoredRow} {inputs : List Bytes}
    (hlen : ∀ bytes, (sha256Hex bytes).utf8ByteSize = 64)
    (hinj : ∀ x ∈ inputs, ∀ y ∈ inputs, sha256Hex x = sha256Hex y → x = y)
    (ha : ∃ bytes, a = sha256Hex bytes) (hb : ∃ bytes, b = sha256Hex bytes)
    (hin : ∀ p ∈ HashChain.linked (link sha256Hex runId) a rows,
      p.2.eventHash = some (link sha256Hex runId p.1 p.2) ∧
        (p.2.fields runId p.1).input ∈ inputs)
    (hin' : ∀ q ∈ HashChain.linked (link sha256Hex runId) b rows',
      q.2.eventHash = some (link sha256Hex runId q.1 q.2) ∧
        (q.2.fields runId q.1).input ∈ inputs) :
    HashChain.Separates (link sha256Hex runId) SameFields
      (HashChain.linked (link sha256Hex runId) a rows)
      (HashChain.linked (link sha256Hex runId) b rows') := by
  intro p hp q hq hlink
  obtain ⟨hpHash, hpIn⟩ := hin p hp
  obtain ⟨hqHash, hqIn⟩ := hin' q hq
  have hinput : (p.2.fields runId p.1).input = (q.2.fields runId q.1).input :=
    hinj _ hpIn _ hqIn hlink
  have hsize : p.1.utf8ByteSize = q.1.utf8ByteSize := by
    obtain ⟨x, hx⟩ := linked_anchor ha p hp
    obtain ⟨y, hy⟩ := linked_anchor hb q hq
    rw [hx, hy, hlen, hlen]
  obtain ⟨hprev, hframed⟩ := input_inj hsize hinput
  simp only [ChainHashFields.framed, StoredRow.fields, List.map_cons, List.map_nil, List.cons.injEq,
    and_true] at hframed
  obtain ⟨-, hseq, hts, hnode, hkind, hpayload, hversion⟩ := hframed
  refine ⟨hprev, ⟨?_, utf8_inj hts, utf8_inj hnode, utf8_inj hkind, utf8_inj hpayload, ?_, ?_⟩⟩
  · exact Int.repr_injective (utf8_inj hseq)
  · exact Framing.decimal_inj hversion
  · rw [hpHash, hqHash, hlink]

/-- Two walks that hold under one head read rows with the same fields. -/
theorem sameFields_of_holds {rows rows' : List Row} {stored stored' : List StoredRow}
    (hlen : ∀ bytes, (sha256Hex bytes).utf8ByteSize = 64)
    (hinj : ∀ x ∈ hashed sha256Hex manifestHash runId rows ++
        hashed sha256Hex manifestHash runId rows',
      ∀ y ∈ hashed sha256Hex manifestHash runId rows ++ hashed sha256Hex manifestHash runId rows',
        sha256Hex x = sha256Hex y → x = y)
    (hrows : rows.map storedRow = stored.map some)
    (hrows' : rows'.map storedRow = stored'.map some)
    (h : Holds sha256Hex manifestHash runId 0 none stored)
    (h' : Holds sha256Hex manifestHash runId 0 none stored')
    (hlength : stored.length = stored'.length)
    (hlast : lastHash none stored = lastHash none stored') :
    List.Forall₂ SameFields stored stored' := by
  match stored, stored' with
  | [], [] => exact .nil
  | [], _ :: _ => cases hlength
  | _ :: _, [] => cases hlength
  | row :: rest, row' :: rest' =>
    obtain ⟨a, ha, hlinks, htip, hhashed⟩ := h.chained
    obtain ⟨b, hb, hlinks', htip', hhashed'⟩ := h'.chained
    rw [htip, htip'] at hlast
    refine (HashChain.rows_of_tip hlength ?_ (Option.some.inj hlast)).2
    refine separates hlen hinj (genesis_hash ha) (genesis_hash hb) ?_ ?_
    · intro p hp
      refine ⟨hlinks p hp, List.mem_append_left _ ?_⟩
      rw [hashed, hhashed rows hrows]
      exact List.mem_map.mpr ⟨p, hp, rfl⟩
    · intro q hq
      refine ⟨hlinks' q hq, List.mem_append_right _ ?_⟩
      rw [hashed, hhashed' rows' hrows']
      exact List.mem_map.mpr ⟨q, hq, rfl⟩

/-! ## Rows and cells -/

/-- A cell that is absent or holds the empty text. -/
def Cell.Blank (c : Cell) : Prop := c = .null ∨ c = .text ""

/-- Two rows the walk cannot tell apart: the same cells, but for a node id absent in one and empty
    in the other. -/
def SameRow (row row' : Row) : Prop :=
  row' = { row with nodeId := row'.nodeId } ∧
    (row'.nodeId = row.nodeId ∨ row.nodeId.Blank ∧ row'.nodeId.Blank)

end

/-- What a row reads back as says what its cells are. -/
theorem storedRow_some {row : Row} {r : StoredRow} :
    storedRow row = some r ↔
      row.seq.asInteger = some r.seq ∧ row.ts.asText = some r.ts ∧
        row.nodeId.asOptionalText = some r.nodeId ∧ row.kind.asText = some r.kind ∧
        row.payloadJson.asText = some r.payloadJson ∧
        row.schemaVersion.asU32 = some r.schemaVersion ∧
        row.eventHash.asOptionalText = some r.eventHash := by
  unfold storedRow
  constructor
  · intro h
    simp only [Option.bind_eq_bind, Option.bind_eq_some_iff, Option.pure_def,
      Option.some.injEq] at h
    obtain ⟨seq, h1, ts, h2, node, h3, kind, h4, payload, h5, version, h6, hash, h7, rfl⟩ := h
    exact ⟨h1, h2, h3, h4, h5, h6, h7⟩
  · rintro ⟨h1, h2, h3, h4, h5, h6, h7⟩
    simp [h1, h2, h3, h4, h5, h6, h7]

theorem asInteger_inj {c c' : Cell} {v : Int} (h : c.asInteger = some v)
    (h' : c'.asInteger = some v) : c = c' := by
  cases c <;> cases c' <;> simp_all [Cell.asInteger]

theorem asText_inj {c c' : Cell} {v : String} (h : c.asText = some v) (h' : c'.asText = some v) :
    c = c' := by
  cases c <;> cases c' <;> simp_all [Cell.asText]

theorem asOptionalText_inj {c c' : Cell} {v : Option String} (h : c.asOptionalText = some v)
    (h' : c'.asOptionalText = some v) : c = c' := by
  cases v <;> cases c <;> cases c' <;> simp_all [Cell.asOptionalText]

theorem asU32_some {c : Cell} {v : Nat} (h : c.asU32 = some v) : c = .integer v := by
  unfold Cell.asU32 at h
  split at h
  · split at h
    · next value hrange =>
      obtain rfl := Option.some.inj h
      rw [Int.toNat_of_nonneg hrange.1]
    · cases h
  · cases h

/-- An optional text that reads as empty is blank, and any other is its own cell. -/
theorem asOptionalText_getD {c c' : Cell} {v v' : Option String} (h : c.asOptionalText = some v)
    (h' : c'.asOptionalText = some v') (he : v.getD "" = v'.getD "") :
    c' = c ∨ c.Blank ∧ c'.Blank := by
  cases c <;> cases c' <;> simp_all [Cell.asOptionalText, Cell.Blank] <;> grind

/-- Rows with the same fields are stored as the same cells, but for a blank node id. -/
theorem sameRow_of_sameFields {row row' : Row} {r r' : StoredRow} (h : storedRow row = some r)
    (h' : storedRow row' = some r') (hsame : SameFields r r') : SameRow row row' := by
  obtain ⟨h1, h2, h3, h4, h5, h6, h7⟩ := storedRow_some.mp h
  obtain ⟨h1', h2', h3', h4', h5', h6', h7'⟩ := storedRow_some.mp h'
  rw [← hsame.seq] at h1'
  rw [← hsame.ts] at h2'
  rw [← hsame.kind] at h4'
  rw [← hsame.payloadJson] at h5'
  rw [← hsame.schemaVersion] at h6'
  rw [← hsame.eventHash] at h7'
  refine ⟨?_, asOptionalText_getD h3 h3' hsame.nodeId⟩
  rcases row with ⟨seq, ts, node, kind, payload, version, hash⟩
  rcases row' with ⟨seq', ts', node', kind', payload', version', hash'⟩
  simp only [Row.mk.injEq, true_and]
  exact ⟨asInteger_inj h1' h1, asText_inj h2' h2, asText_inj h4' h4, asText_inj h5' h5,
    (asU32_some h6').trans (asU32_some h6).symm, asOptionalText_inj h7' h7⟩

theorem sameRows_of_sameFields {rows rows' : List Row} {stored stored' : List StoredRow}
    (h : rows.map storedRow = stored.map some) (h' : rows'.map storedRow = stored'.map some)
    (hsame : List.Forall₂ SameFields stored stored') : List.Forall₂ SameRow rows rows' := by
  induction hsame generalizing rows rows' with
  | nil =>
    obtain rfl : rows = [] := by simpa using h
    obtain rfl : rows' = [] := by simpa using h'
    exact .nil
  | cons hr _ ih =>
    obtain ⟨row, rest, rfl, hrow, hrest⟩ := List.map_eq_cons_iff.mp h
    obtain ⟨row', rest', rfl, hrow', hrest'⟩ := List.map_eq_cons_iff.mp h'
    exact .cons (sameRow_of_sameFields hrow hrow' hr) (ih hrest hrest')

section
variable {sha256Hex : Bytes → String} {manifestHash : String → Option String} {runId : RunId}

/-- **The chain shows every tampering it can read.**  Where the rows of a run verify intact under
    its head, no other sequence of rows does under the same head, unless it differs in nothing but
    node ids that are absent in one and empty in the other. -/
theorem tampering_shows {rows rows' : List Row} {head : Option HeadRow} {n : Nat}
    (hlen : ∀ bytes, (sha256Hex bytes).utf8ByteSize = 64)
    (hinj : ∀ x ∈ hashed sha256Hex manifestHash runId rows ++
        hashed sha256Hex manifestHash runId rows',
      ∀ y ∈ hashed sha256Hex manifestHash runId rows ++ hashed sha256Hex manifestHash runId rows',
        sha256Hex x = sha256Hex y → x = y)
    (h : verifyChain sha256Hex manifestHash runId rows head = .ok (.intact n))
    (hdiff : ¬ List.Forall₂ SameRow rows rows') (m : Nat) :
    verifyChain sha256Hex manifestHash runId rows' head ≠ .ok (.intact m) := by
  intro h'
  obtain ⟨stored, hrows, hholds, hn, -, hash, rfl, hhash⟩ := walk_intact.mp h
  obtain ⟨stored', hrows', hholds', hm, -, hash', hhead, hhash'⟩ := walk_intact.mp h'
  -- the head was left as it was, so the walks end at one seq under one hash
  have hnm : (n : Int) = m ∧ hash = hash' := by simpa using hhead
  obtain ⟨hcount, rfl⟩ := hnm
  have hlength : stored.length = stored'.length := by
    have hl := congrArg List.length hrows
    have hl' := congrArg List.length hrows'
    simp only [List.length_map] at hl hl'
    omega
  exact hdiff (sameRows_of_sameFields hrows hrows'
    (sameFields_of_holds hlen hinj hrows hrows' hholds hholds' hlength
      (hhash.trans hhash'.symm)))

/-- A row with its node id as the link hashes it. -/
def StoredRow.hashedAs (row : StoredRow) : StoredRow := { row with nodeId := some (row.nodeId.getD "") }

/-- Rows the link cannot tell apart read back alike, as far as the link hashes them. -/
theorem storedRow_sameRow {row row' : Row} (h : SameRow row row') :
    (storedRow row).map StoredRow.hashedAs = (storedRow row').map StoredRow.hashedAs := by
  obtain ⟨hcells, hnode⟩ := h
  rcases hnode with hnode | ⟨hblank, hblank'⟩
  · rw [hcells, hnode]
  · rcases row with ⟨seq, ts, node, kind, payload, version, hash⟩
    rcases row' with ⟨seq', ts', node', kind', payload', version', hash'⟩
    obtain ⟨rfl, rfl, -, rfl, rfl, rfl, rfl⟩ := Row.mk.injEq .. ▸ hcells
    obtain rfl | rfl : node = .null ∨ node = .text "" := hblank
    all_goals
      obtain rfl | rfl : node' = .null ∨ node' = .text "" := hblank'
      all_goals simp [storedRow, Cell.asOptionalText, StoredRow.hashedAs, Option.map_bind,
        Function.comp_def]

/-- **Nothing else goes unseen, and this does**: rows that differ in blank node ids alone are one
    walk. -/
theorem walk_sameRow {rows rows' : List Row} (h : List.Forall₂ SameRow rows rows')
    (head : Option HeadRow) (verified : Nat) (prevHash : Option String) :
    walk sha256Hex manifestHash runId head verified prevHash rows =
      walk sha256Hex manifestHash runId head verified prevHash rows' := by
  induction h generalizing verified prevHash with
  | nil => rfl
  | @cons row row' rest rest' hrow _ ih =>
    have hread := storedRow_sameRow hrow
    unfold walk
    cases hr : storedRow row with
    | none =>
      cases hr' : storedRow row' with
      | none => rfl
      | some r' => simp [hr, hr'] at hread
    | some r =>
      cases hr' : storedRow row' with
      | none => simp [hr, hr'] at hread
      | some r' =>
        rw [hr, hr'] at hread
        have hsame : r.hashedAs = r'.hashedAs := Option.some.inj hread
        have hhash : r.eventHash = r'.eventHash := by
          show r.hashedAs.eventHash = r'.hashedAs.eventHash
          rw [hsame]
        -- the row is judged by what the link hashes of it
        have hjudge : judgeRow sha256Hex manifestHash runId r verified prevHash =
            judgeRow sha256Hex manifestHash runId r' verified prevHash := by
          show judgeRow sha256Hex manifestHash runId r.hashedAs verified prevHash =
            judgeRow sha256Hex manifestHash runId r'.hashedAs verified prevHash
          rw [hsame]
        dsimp only
        rw [hjudge, hhash, ih]

end

/-! ## One row, tampered with twice -/

/-- The manifest hash of a run, and the JSON its `run_created` is stored as. -/
def sampleManifest : String := "e3b0c44298fc1c149afbf4c8996fb92427ae41e4649b934ca495991b7852b855"

def samplePayload : String :=
  "\x7b\"manifest_hash\":\"" ++ sampleManifest ++ "\",\"inputs\":\x7b\x7d,\"mode\":\"full\"," ++
    "\"base_branch\":\"main\",\"base_commit\":\"0000000000000000000000000000000000000000\"\x7d"

/-- The row of a run's birth, at `ts` and under `node`. -/
def sampleRow (ts : String) (node : Cell) : Row :=
  ⟨.integer 1, .text ts, node, .text "run_created", .text samplePayload, .integer 1,
    .text "d1193004afc77c6165c4e91a791bed996b71516ccbc4b570791e4dd8e6751d19"⟩

/-- The bytes the birth of run `r1` is hashed from, at `ts`. -/
def sampleInput (ts : String) : Bytes :=
  ChainHashFields.input
    ⟨"cd372fb85148700fa88095e3492d3f9f5beb43e555e5ff26d95f5a6adc36f8e6", "r1", 1, ts, none,
      "run_created", samplePayload, 1⟩

/-- SHA-256 of the manifest hash and of the birth at two instants. -/
def sampleHash (bytes : Bytes) : String :=
  if bytes = utf8 sampleManifest then
    "cd372fb85148700fa88095e3492d3f9f5beb43e555e5ff26d95f5a6adc36f8e6"
  else if bytes = sampleInput "2024-01-01T00:00:00+00:00" then
    "d1193004afc77c6165c4e91a791bed996b71516ccbc4b570791e4dd8e6751d19"
  else "e9d5efd255b55ab973ae5f39af1f15b76c9ec2fe421f44ef16792e4aec8e0f7c"

def sampleManifestHash (payloadJson : String) : Option String :=
  if payloadJson = samplePayload then some sampleManifest else none

def sampleHead : Option HeadRow :=
  some ⟨.integer 1, .text "d1193004afc77c6165c4e91a791bed996b71516ccbc4b570791e4dd8e6751d19"⟩

theorem sampleHash_size (bytes : Bytes) : (sampleHash bytes).utf8ByteSize = 64 := by
  unfold sampleHash
  split
  · rfl
  · split <;> rfl

/-- The birth moved by a year is told apart. -/
theorem tampering_shows_ts :
    verifyChain sampleHash sampleManifestHash "r1" [sampleRow "2025-01-01T00:00:00+00:00" .null]
      sampleHead ≠ .ok (.intact 1) := by
  have hintact : verifyChain sampleHash sampleManifestHash "r1"
      [sampleRow "2024-01-01T00:00:00+00:00" .null] sampleHead = .ok (.intact 1) := by
    decide +kernel
  refine tampering_shows sampleHash_size (by decide +kernel) hintact ?_ 1
  intro h
  cases h with
  | cons h _ => exact absurd h.1 (by decide +kernel)

/-- The birth with its absent node id stored as the empty text verifies intact. -/
theorem empty_node_unseen :
    let rows := [sampleRow "2024-01-01T00:00:00+00:00" .null]
    let rows' := [sampleRow "2024-01-01T00:00:00+00:00" (.text "")]
    rows ≠ rows' ∧
      verifyChain sampleHash sampleManifestHash "r1" rows sampleHead = .ok (.intact 1) ∧
      verifyChain sampleHash sampleManifestHash "r1" rows' sampleHead = .ok (.intact 1) := by
  decide +kernel

end Yunta.Storage
