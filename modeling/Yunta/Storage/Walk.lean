/-
  What the walk over a chain answers, as a statement about its rows.

  `Holds` says every row is at its place under the hash recomputed from its anchor, and
  `walk_intact` that a walk answers `intact` exactly when its rows read back, hold, and end on the
  head.
-/
import Yunta.Storage.Chain

set_option linter.unusedVariables false

namespace Yunta.Storage

open Framing (Bytes)

section
variable (sha256Hex : Bytes → String) (manifestHash : String → Option String) (runId : RunId)

/-- The link of a row, from the hash before it. -/
def link (prevHash : String) (row : StoredRow) : String :=
  chainHash sha256Hex (row.fields runId prevHash)

/-! ## Walks that hold -/

/-- Every row is at its place, under the hash recomputed from its anchor. -/
inductive Holds : Nat → Option String → List StoredRow → Prop
  | nil (verified : Nat) (prevHash : Option String) : Holds verified prevHash []
  | cons {verified : Nat} {prevHash : Option String} {row : StoredRow} {rest : List StoredRow}
      {a : String} : row.seq = verified + 1 →
      anchor sha256Hex manifestHash runId prevHash row = .ok a →
      row.eventHash = some (link sha256Hex runId a row) →
      Holds (verified + 1) row.eventHash rest → Holds verified prevHash (row :: rest)

/-- The hash a walk ends with. -/
def lastHash : Option String → List StoredRow → Option String
  | prevHash, [] => prevHash
  | _, row :: rest => lastHash row.eventHash rest

variable {sha256Hex manifestHash runId}

theorem seqTryFrom_pos {value : Int} (h : 0 < value) :
    seqTryFrom runId value = .ok value.toNat := if_pos h

/-- A row judged to hold is at its place, under its own hash. -/
theorem judgeRow_none {row : StoredRow} {verified : Nat} {prevHash : Option String} :
    judgeRow sha256Hex manifestHash runId row verified prevHash = .ok none ↔
      row.seq = verified + 1 ∧ ∃ a, anchor sha256Hex manifestHash runId prevHash row = .ok a ∧
        row.eventHash = some (link sha256Hex runId a row) := by
  unfold judgeRow
  by_cases hseq : row.seq = verified + 1
  · have hpos : 0 < row.seq := by omega
    rw [seqTryFrom_pos hpos]
    dsimp only
    rw [if_neg (not_not.mpr hseq)]
    cases hhash : row.eventHash with
    | none => simp
    | some storedHash =>
      cases ha : anchor sha256Hex manifestHash runId prevHash row with
      | error e => simp
      | ok a =>
        by_cases he : chainHash sha256Hex (row.fields runId a) = storedHash
        · simp [he, hseq, link]
        · simp [he, hseq, link, Ne.symm he]
  · constructor
    · intro h
      split at h
      · cases h
      · simp [hseq] at h
    · intro h
      exact absurd h.1 hseq

/-- A row is never judged intact: only the head decides that. -/
theorem judgeRow_some {row : StoredRow} {verified n : Nat} {prevHash : Option String} :
    judgeRow sha256Hex manifestHash runId row verified prevHash ≠ .ok (some (.intact n)) := by
  intro h
  unfold judgeRow at h
  dsimp only at h
  repeat' split at h
  all_goals simp at h

/-- The head names the last row of a walk. -/
def NamesLast (head : Option HeadRow) (events : Nat) (hash : Option String) : Prop :=
  ∃ stored, head = some ⟨.integer events, .text stored⟩ ∧ hash = some stored

theorem judgeHead_intact {head : Option (Int × String)} {verified n : Nat} {hash : Option String} :
    judgeHead runId head verified hash = .ok (.intact n) ↔
      0 < verified ∧ n = verified ∧ ∃ stored, head = some ((verified : Int), stored) ∧
        hash = some stored := by
  unfold judgeHead seqTryFrom
  by_cases hpos : 0 < verified
  · have hcast : (0 : Int) < verified := by omega
    simp only [hcast, if_true, hpos, true_and]
    rcases head with _ | ⟨seq, stored⟩
    · simp
    · dsimp only
      by_cases hnames : seq = (verified : Int) ∧ some stored = hash
      · rw [if_pos hnames]
        obtain ⟨rfl, rfl⟩ := hnames
        simp [eq_comm]
      · rw [if_neg hnames]
        constructor
        · intro h
          split at h
          · split at h
            · cases h
            · cases h
          · cases h
        · rintro ⟨-, stored', hhead, rfl⟩
          obtain ⟨rfl, rfl⟩ := Prod.mk.inj (Option.some.inj hhead)
          exact absurd ⟨rfl, rfl⟩ hnames
  · simp [hpos]

theorem storedHead_some {head : Option HeadRow} {seq : Int} {hash : String} :
    storedHead runId head = .ok (some (seq, hash)) ↔ head = some ⟨.integer seq, .text hash⟩ := by
  unfold storedHead
  rcases head with _ | ⟨seqCell, hashCell⟩
  · simp
  · cases seqCell <;> cases hashCell <;> simp [Cell.asInteger, Cell.asText]

/-- **A walk answers `intact` exactly when** every row reads back and holds, and the head names the
    last one. -/
theorem walk_intact {head : Option HeadRow} {rows : List Row} {verified n : Nat}
    {prevHash : Option String} :
    walk sha256Hex manifestHash runId head verified prevHash rows = .ok (.intact n) ↔
      ∃ stored, rows.map storedRow = stored.map some ∧
        Holds sha256Hex manifestHash runId verified prevHash stored ∧
        n = verified + rows.length ∧ 0 < n ∧ NamesLast head n (lastHash prevHash stored) := by
  induction rows generalizing verified prevHash with
  | nil =>
    unfold walk
    constructor
    · intro h
      split at h
      · cases h
      · next hpos =>
        split at h
        · cases h
        · next hd hread =>
          obtain ⟨-, rfl, stored, rfl, hhash⟩ := judgeHead_intact.mp h
          exact ⟨[], rfl, .nil _ _, rfl, Nat.pos_of_ne_zero hpos, stored,
            storedHead_some.mp hread, hhash⟩
    · rintro ⟨stored, hmap, -, hn, hpos, hash, hhead, hlast⟩
      obtain rfl : stored = [] := by simpa using hmap.symm
      obtain rfl : n = verified := by simpa using hn
      rw [if_neg (Nat.ne_of_gt hpos), storedHead_some.mpr hhead]
      exact judgeHead_intact.mpr ⟨hpos, rfl, hash, rfl, hlast⟩
  | cons row rest ih =>
    unfold walk
    constructor
    · intro h
      split at h
      · cases h
      · next r hr =>
        split at h
        · cases h
        · next hjudge =>
          cases h
          exact absurd hjudge judgeRow_some
        · next hjudge =>
          obtain ⟨hseq, a, ha, hhash⟩ := judgeRow_none.mp hjudge
          obtain ⟨stored, hmap, hholds, hn, hpos, hlast⟩ := ih.mp h
          refine ⟨r :: stored, by simp [hr, hmap], .cons hseq ha hhash hholds, ?_, hpos, ?_⟩
          · rw [hn, List.length_cons]; omega
          · exact hlast
    · rintro ⟨stored, hmap, hholds, hn, hpos, hlast⟩
      cases hholds with
      | nil => simp at hmap
      | @cons _ _ r stored a hseq ha hhash hrest =>
        obtain ⟨hr, hmap⟩ := List.cons.inj hmap
        have hnext := ih.mpr ⟨stored, hmap, hrest, by rw [hn, List.length_cons]; omega, hpos, hlast⟩
        rw [hr]
        dsimp only
        rw [judgeRow_none.mpr ⟨hseq, a, ha, hhash⟩]
        exact hnext

end

end Yunta.Storage
