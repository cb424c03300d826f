/-
  What the close of a unit of work reports of the paths it changed.

  1. **The close** — `trespasses` judges each changed path outside the staging area against the set the
     closing reads.  A loop's close leaves approved tests out: each task judges them when it lands.

  2. **What it owes** — `Exact`: a path is reported exactly when an entry the closing judges, and no
     lift covers, holds it, once for each time it changed, and with the reason of such an entry.

  3. **Main result** — `exact_iff_undisturbed`: a close is exact unless a loop's close meets a path an
     approved test holds beside a judged entry, and no judged entry of an earlier reason holds it unlifted.
     The reason is read from every entry, whichever the closing judges.
-/
import Yunta.Lib.Paths
import Yunta.Scope.Protected

set_option linter.unusedVariables false

namespace Yunta

/-! ## The close -/

/-- When a unit's diff is judged. -/
inductive Closing where
  | every | loopClose
  deriving DecidableEq

/-- A changed path a set protects, and the reason it does. -/
structure Trespass where
  path : String
  reason : Protection
  deriving DecidableEq

variable {builds : List ScopeGlob → Bool}

/-- A path at or under one of the mounts an adapter staged. -/
def staged (mounts : List String) (path : String) : Bool := mounts.any (Paths.startsWith path)

namespace Protected

/-- The entries a closing reads. -/
def judged (set : Protected builds) : Closing → List Entry
  | .every => set.entries
  | .loopClose => set.entries.filter fun e => e.reason ≠ .approvedTest

/-- The changed paths the set protects at this closing.  A path under a staged mount is the adapter's
    own write, never a trespass. -/
def trespasses (set : Protected builds) (selects : ScopeGlob → String → Bool)
    (changed mounts : List String) (closing : Closing) : List Trespass :=
  ((changed.filter fun path => !staged mounts path).filter fun path =>
    (set.judged closing).any fun e => selects e.glob path).filterMap fun path =>
      (set.reasonOf selects path).map fun reason => ⟨path, reason⟩

section
variable (set : Protected builds) (selects : ScopeGlob → String → Bool)

/-! ## What it owes -/

/-- An entry holds a path, and no lift covers it there. -/
def Holds (entry : Entry) (path : String) : Prop :=
  selects entry.glob path = true ∧ (set.lifted selects path && entry.reason.personMayGrant) = false

instance (entry : Entry) (path : String) : Decidable (set.Holds selects entry path) :=
  inferInstanceAs (Decidable (_ ∧ _))

/-- The close reports exactly the protected paths that changed. -/
structure Exact (changed mounts : List String) (closing : Closing) : Prop where
  reported : ∀ path ∈ changed,
    (path ∈ (set.trespasses selects changed mounts closing).map (·.path) ↔
      staged mounts path = false ∧ ∃ entry ∈ set.judged closing, set.Holds selects entry path)
  once : ((set.trespasses selects changed mounts closing).map (·.path)).Sublist changed
  reason : ∀ t ∈ set.trespasses selects changed mounts closing,
    ∃ entry ∈ set.judged closing, set.Holds selects entry t.path ∧ entry.reason = t.reason

/-- No approved test stands between a path and the entries a closing judges: where one holds a path
    beside a judged entry, a judged entry of an earlier reason holds it too, and is not lifted. -/
def Undisturbed (changed mounts : List String) (closing : Closing) : Prop :=
  closing = .every ∨ ∀ path ∈ changed, staged mounts path = false →
    (∃ entry ∈ set.judged closing, selects entry.glob path = true) →
    (∃ test ∈ set.entries, test.reason = .approvedTest ∧ selects test.glob path = true) →
      ∃ entry ∈ set.judged closing, set.Holds selects entry path ∧
        entry.reason.rank < Protection.approvedTest.rank

variable {set selects} {changed mounts : List String} {closing : Closing} {path : String}

theorem judged_subset {entry : Entry} (h : entry ∈ set.judged closing) : entry ∈ set.entries := by
  cases closing with
  | every => exact h
  | loopClose => exact (List.mem_filter.mp h).1

/-- The reason a path is protected is that of an entry that holds it, and none comes before it. -/
theorem reasonOf_eq_some {reason : Protection} (h : set.reasonOf selects path = some reason) :
    (∃ entry ∈ set.entries, set.Holds selects entry path ∧ entry.reason = reason) ∧
      ∀ entry ∈ set.entries, set.Holds selects entry path → reason.rank ≤ entry.reason.rank := by
  constructor
  · obtain ⟨hmem, hkept⟩ := List.mem_filter.mp (List.argmin_mem h)
    obtain ⟨entry, hentry, rfl⟩ := List.mem_map.mp hmem
    obtain ⟨hin, hselects⟩ := List.mem_filter.mp hentry
    exact ⟨entry, hin, ⟨hselects, Bool.not_eq_true' _ ▸ hkept⟩, rfl⟩
  · intro entry hentry ⟨hselects, hlift⟩
    refine List.le_of_mem_argmin (List.mem_filter.mpr ⟨?_, ?_⟩) h
    · exact List.mem_map_of_mem (List.mem_filter.mpr ⟨hentry, hselects⟩)
    · rw [hlift]
      rfl

/-- A path some entry holds has a reason. -/
theorem reasonOf_isSome {entry : Entry} (hentry : entry ∈ set.entries)
    (h : set.Holds selects entry path) : ∃ reason, set.reasonOf selects path = some reason := by
  refine Option.ne_none_iff_exists'.mp fun hnone => ?_
  obtain ⟨hgrant, hlifted⟩ := reasonOf_eq_none.mp hnone entry hentry h.1
  have hlift := h.2
  rw [hgrant, hlifted] at hlift
  cases hlift

theorem mem_trespasses {t : Trespass} :
    t ∈ set.trespasses selects changed mounts closing ↔
      t.path ∈ changed ∧ staged mounts t.path = false ∧
        (∃ entry ∈ set.judged closing, selects entry.glob t.path = true) ∧
          set.reasonOf selects t.path = some t.reason := by
  rw [trespasses, List.mem_filterMap]
  simp only [List.mem_filter, List.any_eq_true, Bool.not_eq_true', Option.map_eq_some_iff]
  constructor
  · rintro ⟨path, ⟨⟨hchanged, hstaged⟩, hjudged⟩, reason, hreason, rfl⟩
    exact ⟨hchanged, hstaged, hjudged, hreason⟩
  · rintro ⟨hchanged, hstaged, hjudged, hreason⟩
    exact ⟨t.path, ⟨⟨hchanged, hstaged⟩, hjudged⟩, t.reason, hreason, rfl⟩

/-- Each change is reported once at most. -/
theorem trespasses_sublist :
    ((set.trespasses selects changed mounts closing).map (·.path)).Sublist changed := by
  have hpaths : ∀ paths : List String, ((paths.filterMap fun path =>
      (set.reasonOf selects path).map fun reason => (⟨path, reason⟩ : Trespass)).map
        (·.path)).Sublist paths := by
    intro paths
    induction paths with
    | nil => exact .slnil
    | cons path paths ih =>
      rw [List.filterMap_cons]
      cases set.reasonOf selects path with
      | none => exact ih.cons path
      | some reason => exact ih.cons_cons path
  exact (hpaths _).trans (List.filter_sublist.trans List.filter_sublist)

/-- An entry a loop's close leaves out is an approved test's. -/
theorem judged_or_test {entry : Entry} (h : entry ∈ set.entries) :
    entry ∈ set.judged closing ∨ closing = .loopClose ∧ entry.reason = .approvedTest := by
  cases closing with
  | every => exact .inl h
  | loopClose =>
    by_cases htest : entry.reason = .approvedTest
    · exact .inr ⟨rfl, htest⟩
    · exact .inl (List.mem_filter.mpr ⟨h, by simpa using htest⟩)

/-- **Where no test stands between**, the reason of a judged path is that of a judged entry. -/
theorem judged_reason (h : set.Undisturbed selects changed mounts closing)
    (hchanged : path ∈ changed) (hstaged : staged mounts path = false)
    (hjudged : ∃ entry ∈ set.judged closing, selects entry.glob path = true) {reason : Protection}
    (hreason : set.reasonOf selects path = some reason) :
    ∃ entry ∈ set.judged closing, set.Holds selects entry path ∧ entry.reason = reason := by
  obtain ⟨⟨entry, hentry, hholds, heq⟩, hfirst⟩ := reasonOf_eq_some hreason
  rcases (judged_or_test hentry : entry ∈ set.judged closing ∨ _) with hin | ⟨hclose, htest⟩
  · exact ⟨entry, hin, hholds, heq⟩
  · -- an approved test names the path, so no earlier reason holds it
    rcases h with h | h
    · rw [h] at hclose
      cases hclose
    · obtain ⟨other, hother, hotherHolds, hrank⟩ :=
        h path hchanged hstaged hjudged ⟨entry, hentry, htest, hholds.1⟩
      have hle := hfirst other (judged_subset hother) hotherHolds
      rw [← heq, htest] at hle
      omega

theorem exact_of_undisturbed (h : set.Undisturbed selects changed mounts closing) :
    set.Exact selects changed mounts closing where
  reported := by
    intro path hchanged
    constructor
    · intro hmem
      obtain ⟨t, ht, rfl⟩ := List.mem_map.mp hmem
      obtain ⟨-, hstaged, hjudged, hreason⟩ := mem_trespasses.mp ht
      obtain ⟨entry, hentry, hholds, -⟩ := judged_reason h hchanged hstaged hjudged hreason
      exact ⟨hstaged, entry, hentry, hholds⟩
    · rintro ⟨hstaged, entry, hentry, hholds⟩
      obtain ⟨reason, hreason⟩ := reasonOf_isSome (judged_subset hentry) hholds
      refine List.mem_map.mpr ⟨⟨path, reason⟩, mem_trespasses.mpr ?_, rfl⟩
      exact ⟨hchanged, hstaged, ⟨entry, hentry, hholds.1⟩, hreason⟩
  once := trespasses_sublist
  reason := by
    intro t ht
    obtain ⟨hchanged, hstaged, hjudged, hreason⟩ := mem_trespasses.mp ht
    exact judged_reason h hchanged hstaged hjudged hreason

/-- A reason no later than the approved tests', and not theirs, comes before it. -/
theorem before_test : ∀ reason : Protection, reason.rank ≤ Protection.approvedTest.rank →
    reason ≠ .approvedTest → reason.rank < Protection.approvedTest.rank := by
  intro reason
  cases reason <;> decide

theorem undisturbed_of_exact (h : set.Exact selects changed mounts closing) :
    set.Undisturbed selects changed mounts closing := by
  cases closing with
  | every => exact .inl rfl
  | loopClose =>
    refine .inr fun path hchanged hstaged hjudged ⟨test, htest, hreason, hselects⟩ => ?_
    -- nobody lifts an approved test, so the path has a reason and is reported
    have hholds : set.Holds selects test path := ⟨hselects, by simp [hreason, Protection.personMayGrant]⟩
    obtain ⟨reason, hfound⟩ := reasonOf_isSome htest hholds
    have hreported : (⟨path, reason⟩ : Trespass) ∈
        set.trespasses selects changed mounts .loopClose :=
      mem_trespasses.mpr ⟨hchanged, hstaged, hjudged, hfound⟩
    obtain ⟨entry, hentry, hentryHolds, heq⟩ := h.reason _ hreported
    refine ⟨entry, hentry, hentryHolds, ?_⟩
    have hle := (reasonOf_eq_some hfound).2 test htest hholds
    have hne : entry.reason ≠ .approvedTest := by simpa using (List.mem_filter.mp hentry).2
    rw [hreason] at hle
    rw [heq] at hne ⊢
    exact before_test reason hle hne

end

/-- **The close reports exactly the protected paths that changed** if and only if no approved test
    stands between a path and the entries it judges. -/
theorem exact_iff_undisturbed (set : Protected builds) (selects : ScopeGlob → String → Bool)
    (changed mounts : List String) (closing : Closing) :
    set.Exact selects changed mounts closing ↔ set.Undisturbed selects changed mounts closing :=
  ⟨undisturbed_of_exact, exact_of_undisturbed⟩

/-- An instruction file a person granted, which is a test a person approved as well. -/
def grantedInstructions : Protected fun _ => true where
  entries := [⟨.agentInstructions, "docs/AGENTS.md", false⟩, ⟨.approvedTest, "docs/AGENTS.md", false⟩]
  granted := ["docs/AGENTS.md"]
  every := rfl
  atLoopClose := rfl

/-- **A loop's close reports what it leaves out**: the one entry it judges is lifted, and the path is
    reported for the approved test all the same. -/
theorem not_exact_loopClose :
    ¬ grantedInstructions.Exact (fun glob path => glob = path) ["docs/AGENTS.md"] [] .loopClose ∧
    grantedInstructions.trespasses (fun glob path => glob = path) ["docs/AGENTS.md"] [] .loopClose =
      [⟨"docs/AGENTS.md", .approvedTest⟩] := by
  have hreported : grantedInstructions.trespasses (fun glob path => glob = path) ["docs/AGENTS.md"] []
      .loopClose = [⟨"docs/AGENTS.md", .approvedTest⟩] := by decide +kernel
  refine ⟨fun h => ?_, hreported⟩
  obtain ⟨-, entry, hentry, hholds⟩ := (h.reported "docs/AGENTS.md" (by simp)).mp (by
    rw [hreported]
    simp)
  revert entry
  decide +kernel

end Protected

end Yunta
