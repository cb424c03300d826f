/-
  Every decision about a request to write outside a scope.

  1. **Screen** — what protection, the precheck, the mode and the batch settle before any file of
     the diff is read.  **Settle** — the file bound, then the cap, for a candidate `screen` leaves
     open.  `expand` is the two in a row.  `nodeOffer` answers for a node's offer.

  2. **Shape** — a request is decided whole: it is granted only when nothing of it reaches the
     protected set (`expand_grant`), and waits for a person only when no part of it reaches what
     nobody may grant (`expand_escalate`).

  3. **Main result** — `expand_keeps_protected`: no grant covers a protected path and no offer one
     that nobody may grant, exactly when each pair of globs the overlap test misses shares no such
     path.  One of such a pair is nothing but `**/`.
-/
import Yunta.Config.Permissions
import Yunta.Events.Payloads
import Yunta.Scope.Protected

set_option linter.unusedVariables false

namespace Yunta

/-! ## Offers -/

/-- What running a proposed criterion found. -/
inductive Precheck where
  | passes
  /-- The criterion fails with this exit. -/
  | red (exit : Int)
  | couldNotRun
  | notRun
  deriving DecidableEq

/-- Why a request was denied. -/
inductive Denial where
  | notWidenable
  | reachesProtected (reached : List (ScopeGlob × Protection))
  | nothingLeft
  | modeDeny
  | noCriterion
  | precheckPasses
  | criterionCouldNotRun
  | tooManyFiles (touched bound : Nat)
  /-- A person chose an option other than a grant. -/
  | chosen (option : String) (note : Option String)
  /-- A refusal read from its text. -/
  | legacy (text : String)
  deriving DecidableEq

/-- Every path a protection holds, with the strictest reason that reaches it. -/
def reaching (paths : List ScopeGlob) (reachedBy : ScopeGlob → Option Protection) :
    List (ScopeGlob × Protection) :=
  paths.filterMap fun path => (reachedBy path).map fun reason => (path, reason)

/-- All of `paths` when a person may grant every one of them, or the one denial that stops them as
    a whole. -/
def nodeOffer (paths : List ScopeGlob) (reachedBy : ScopeGlob → Option Protection)
    (widenable : Bool) : Except Denial (List ScopeGlob) :=
  if !widenable then .error .notWidenable
  else
    let reached := reaching paths reachedBy
    if reached.any fun reach => !reach.2.personMayGrant then .error (.reachesProtected reached)
    else if paths.isEmpty then .error .nothingLeft
    else .ok paths

namespace Expansion

/-- Whether a reach holds a path that no person may grant. -/
def refusesWhole (reached : List (ScopeGlob × Protection)) : Bool :=
  reached.any fun reach => !reach.2.personMayGrant

/-! ## Asks and decisions -/

/-- A criterion a session proposed for its request, and what running it found. -/
structure Proposal where
  cmd : String
  precheck : Precheck
  deriving DecidableEq

/-- What a decision is about. -/
inductive Ask where
  | requested (paths : List ScopeGlob) (reason : String) (proposal : Option Proposal)
  /-- Paths a red output of this task locates as `path:line`. -/
  | located (paths : List ScopeGlob) (criterion : String)
  deriving DecidableEq

def Ask.paths : Ask → List ScopeGlob
  | requested paths _ _ => paths
  | located paths _ => paths

/-- The limits a request is decided under. -/
structure Bounds (builds : List ScopeGlob → Bool) where
  mode : ScopeExpansionMode
  /-- The most files a bounded grant may touch. -/
  maxFiles : Nat
  maxPerRun : Option Nat
  protection : Protected builds
  /-- Paths another task of the batch may write. -/
  beside : List ScopeGlob

/-- Why a request waits for a person instead of being decided. -/
inductive Waiting where
  | modeAsk
  | sharedWithBatch
  | capExhausted (granted cap : Nat)
  | instructions
  | person
  deriving DecidableEq

inductive Decision where
  | grant (paths : List ScopeGlob) (decidedBy : Decider)
  | escalate (paths : List ScopeGlob) (because : Waiting)
  | deny (denial : Denial)
  deriving DecidableEq

/-- A request the protection, mode and batch rules leave open. -/
structure Candidate where
  paths : List ScopeGlob
  decidedBy : Decider
  /-- Whether the file bound applies. -/
  bounded : Bool
  deriving DecidableEq

/-- The first answer a request gets. -/
inductive Screen where
  | settled (decision : Decision)
  | candidate (candidate : Candidate)
  deriving DecidableEq

variable {builds : List ScopeGlob → Bool} (selects : ScopeGlob → String → Bool)

/-! ## Screening -/

/-- The paths, the proposal, who decides, and whether the file bound applies. -/
def origin (ask : Ask) (bounds : Bounds builds) :
    List ScopeGlob × Option Proposal × Decider × Bool :=
  match ask with
  | .requested paths _ proposal => (paths, proposal, .rule, bounds.mode = .rules)
  | .located paths criterion => (paths, none, .evidence criterion, bounds.mode = .rules)

/-- The denial a proposed criterion settles on its own: a pass, or no run. -/
def precheckDenial (proposal : Option Proposal) : Option Denial :=
  match proposal.map Proposal.precheck with
  | some .passes => some .precheckPasses
  | some .couldNotRun => some .criterionCouldNotRun
  | some (.red _) | some .notRun | none => none

/-- What the mode settles before any file is read. -/
def byMode (ask : Ask) (mode : ScopeExpansionMode) (paths : List ScopeGlob)
    (reachesInstructions : Bool) : Option Decision :=
  if mode = .deny then some (.deny .modeDeny)
  -- what is left reaches only instruction files, under `ask` and `rules` alike
  else if reachesInstructions then some (.escalate paths .instructions)
  else
    match ask, mode with
    | .requested _ _ none, .rules => some (.deny .noCriterion)
    | .requested _ _ _, .ask => some (.escalate paths .modeAsk)
    | _, _ => none

/-- Protection, precheck, mode and batch: none of them needs git. -/
def screen (ask : Ask) (bounds : Bounds builds) : Screen :=
  match origin ask bounds with
  | (paths, proposal, decidedBy, bounded) =>
    -- protection first: no mode, batch or cap admits a path the engine never grants
    if refusesWhole (reaching paths (bounds.protection.reachedBy selects)) then
      .settled (.deny (.reachesProtected (reaching paths (bounds.protection.reachedBy selects))))
    else
      match precheckDenial proposal with
      | some denial => .settled (.deny denial)
      | none =>
        match byMode ask bounds.mode paths
            (!(reaching paths (bounds.protection.reachedBy selects)).isEmpty) with
        | some decision => .settled decision
        | none =>
          if paths.any fun path => reachesAny selects path bounds.beside then
            .settled (.escalate paths .sharedWithBatch)
          else .candidate { paths, decidedBy, bounded }

/-! ## Settling -/

/-- The file bound, then the cap. -/
def settle (c : Candidate) (touched grantedSoFar : Nat) (bounds : Bounds builds) : Decision :=
  if c.bounded && touched > bounds.maxFiles then .deny (.tooManyFiles touched bounds.maxFiles)
  else
    match bounds.maxPerRun with
    | some cap =>
      if grantedSoFar ≥ cap then .escalate c.paths (.capExhausted grantedSoFar cap)
      else .grant c.paths c.decidedBy
    | none => .grant c.paths c.decidedBy

/-- How many of the touched files the candidate's paths cover.  A set that does not build counts as
    `usize::MAX`. -/
def touchedUnder (builds : List ScopeGlob → Bool) (c : Candidate) (touched : List String) : Nat :=
  if builds c.paths then (touched.filter fun file => c.paths.any fun g => selects g file).length
  else 2 ^ 64 - 1

/-- Decides one request: what `screen` leaves open is bounded by the files this attempt touched when
    its mode bounds it, and then settled against the grants so far. -/
def expand (ask : Ask) (bounds : Bounds builds) (touched : List String) (grantedSoFar : Nat) :
    Decision :=
  match screen selects ask bounds with
  | .settled decision => decision
  | .candidate c =>
    settle c (if c.bounded then touchedUnder selects builds c touched else 0) grantedSoFar bounds

/-! ## What a request reaches -/

section Reach

variable {selects} {protection : Protected builds} {paths : List ScopeGlob}

/-- A request reaches nothing exactly when none of its globs overlaps an entry. -/
theorem reaching_eq_nil : reaching paths (protection.reachedBy selects) = [] ↔
    ∀ glob ∈ paths, ∀ entry ∈ protection.entries, mightOverlap selects glob entry.glob = false := by
  rw [reaching, List.filterMap_eq_nil_iff]
  simp only [Option.map_eq_none_iff, Protected.reachedBy_eq_none]

/-- A request is refused whole exactly when one of its globs overlaps an entry nobody may grant. -/
theorem refusesWhole_iff : refusesWhole (reaching paths (protection.reachedBy selects)) = true ↔
    ∃ glob ∈ paths, ∃ entry ∈ protection.entries, mightOverlap selects glob entry.glob = true ∧
      entry.reason.personMayGrant = false := by
  simp only [refusesWhole, List.any_eq_true, ← Protected.reachedBy_refuses]
  constructor
  · rintro ⟨reach, hreach, hgrant⟩
    obtain ⟨glob, hglob, hmap⟩ := List.mem_filterMap.mp hreach
    obtain ⟨reason, hreason, rfl⟩ := Option.map_eq_some_iff.mp hmap
    exact ⟨glob, hglob, reason, hreason, by simpa using hgrant⟩
  · rintro ⟨glob, hglob, reason, hreason, hgrant⟩
    refine ⟨(glob, reason), List.mem_filterMap.mpr ⟨glob, hglob, ?_⟩, by simpa using hgrant⟩
    rw [hreason]
    rfl

end Reach

/-! ## The shape of a decision -/

section Shape

variable {selects} {ask : Ask} {bounds : Bounds builds} {touched : List String} {grantedSoFar : Nat}
  {paths : List ScopeGlob}

theorem origin_paths (ask : Ask) (bounds : Bounds builds) : (origin ask bounds).1 = ask.paths := by
  cases ask <;> rfl

/-- What a mode settles is a denial, or a wait with the paths it was given. -/
theorem byMode_cases {mode : ScopeExpansionMode} {reached : Bool} {decision : Decision}
    (h : byMode ask mode paths reached = some decision) :
    (∃ denial, decision = .deny denial) ∨ ∃ because, decision = .escalate paths because := by
  unfold byMode at h
  split at h
  · exact .inl ⟨_, (Option.some.inj h).symm⟩
  split at h
  · exact .inr ⟨_, (Option.some.inj h).symm⟩
  split at h
  · exact .inl ⟨_, (Option.some.inj h).symm⟩
  · exact .inr ⟨_, (Option.some.inj h).symm⟩
  · cases h

/-- A candidate is settled by the bound, by the cap or by a grant of its paths. -/
theorem settle_cases (c : Candidate) (n grantedSoFar : Nat) (bounds : Bounds builds) :
    (∃ denial, settle c n grantedSoFar bounds = .deny denial) ∨
      (∃ because, settle c n grantedSoFar bounds = .escalate c.paths because) ∨
        settle c n grantedSoFar bounds = .grant c.paths c.decidedBy := by
  unfold settle
  split
  · exact .inl ⟨_, rfl⟩
  split
  · split
    · exact .inr (.inl ⟨_, rfl⟩)
    · exact .inr (.inr rfl)
  · exact .inr (.inr rfl)

/-- **What `screen` answers.**  A denial; or, of a request no part of which reaches what nobody may
    grant, a wait; or a candidate, of a request that reaches nothing protected. -/
theorem screen_cases (selects : ScopeGlob → String → Bool) (ask : Ask) (bounds : Bounds builds) :
    (∃ denial, screen selects ask bounds = .settled (.deny denial)) ∨
      refusesWhole (reaching ask.paths (bounds.protection.reachedBy selects)) = false ∧
        ((∃ because, screen selects ask bounds = .settled (.escalate ask.paths because)) ∨
          reaching ask.paths (bounds.protection.reachedBy selects) = [] ∧
            ∃ c : Candidate, c.paths = ask.paths ∧ screen selects ask bounds = .candidate c) := by
  have hpaths := origin_paths ask bounds
  unfold screen
  generalize origin ask bounds = o at hpaths ⊢
  obtain ⟨paths, proposal, decidedBy, bounded⟩ := o
  subst hpaths
  simp only []
  split
  · exact .inl ⟨_, rfl⟩
  next hwhole =>
  refine (?_ : _ ∨ _).imp_right fun h => ⟨by simpa using hwhole, h⟩
  split
  · exact .inl ⟨_, rfl⟩
  split
  · next decision hmode =>
    rcases byMode_cases hmode with ⟨denial, rfl⟩ | ⟨because, rfl⟩
    · exact .inl ⟨_, rfl⟩
    · exact .inr (.inl ⟨_, rfl⟩)
  next hmode =>
  have hnil : reaching ask.paths (bounds.protection.reachedBy selects) = [] := by
    by_contra hne
    unfold byMode at hmode
    split at hmode
    · cases hmode
    · rw [if_pos (by simpa using hne)] at hmode
      cases hmode
  split
  · exact .inr (.inl ⟨_, rfl⟩)
  · exact .inr (.inr ⟨hnil, _, rfl, rfl⟩)

/-- **A grant** covers the request as a whole, and nothing of it reaches the protected set. -/
theorem expand_grant {decidedBy : Decider}
    (h : expand selects ask bounds touched grantedSoFar = .grant paths decidedBy) :
    paths = ask.paths ∧ reaching ask.paths (bounds.protection.reachedBy selects) = [] := by
  unfold expand at h
  rcases screen_cases selects ask bounds with
    ⟨denial, hs⟩ | ⟨-, ⟨because, hs⟩ | ⟨hnil, c, hc, hs⟩⟩ <;> rw [hs] at h <;> simp only [] at h
  · cases h
  · cases h
  · rcases settle_cases c
      (if c.bounded then touchedUnder selects builds c touched else 0) grantedSoFar bounds with
      ⟨_, hd⟩ | ⟨_, hd⟩ | hd <;> rw [hd] at h <;> cases h
    exact ⟨hc, hnil⟩

/-- **A wait** is for the request as a whole, and no part of it reaches what nobody may grant. -/
theorem expand_escalate {because : Waiting}
    (h : expand selects ask bounds touched grantedSoFar = .escalate paths because) :
    paths = ask.paths ∧
      refusesWhole (reaching ask.paths (bounds.protection.reachedBy selects)) = false := by
  unfold expand at h
  rcases screen_cases selects ask bounds with
    ⟨denial, hs⟩ | ⟨hwhole, ⟨because, hs⟩ | ⟨hnil, c, hc, hs⟩⟩ <;> rw [hs] at h <;>
    simp only [] at h
  · cases h
  · cases h
    exact ⟨rfl, hwhole⟩
  · rcases settle_cases c
      (if c.bounded then touchedUnder selects builds c touched else 0) grantedSoFar bounds with
      ⟨_, hd⟩ | ⟨_, hd⟩ | hd <;> rw [hd] at h <;> cases h
    exact ⟨hc, hwhole⟩

end Shape

/-! ## Protected paths -/

section Guard

variable (protection : Protected builds)

/-- A person may grant all that holds a path of `paths`. -/
def Grantable (paths : List ScopeGlob) : Prop :=
  ∀ glob ∈ paths, ∀ path, selects glob path = true →
    ∀ entry ∈ protection.entries, selects entry.glob path = true →
      entry.reason.personMayGrant = true

/-- No grant covers a protected path, and nothing waits for a person that no person may grant. -/
def Keeps : Decision → Prop
  | .grant paths _ => ∀ glob ∈ paths, ∀ path, selects glob path = true →
      protection.reasonOf selects path = none
  | .escalate paths _ => Grantable selects protection paths
  | .deny _ => True

/-- Each pair the overlap test misses, an asked glob and a protected one, shares only paths a person
    may grant, all lifted where the request reaches nothing else; or the request is refused whole
    for another pair. -/
def Guarded (paths : List ScopeGlob) : Prop :=
  (∃ glob ∈ paths, ∃ entry ∈ protection.entries, mightOverlap selects glob entry.glob = true ∧
    entry.reason.personMayGrant = false) ∨
  ∀ glob ∈ paths, ∀ entry ∈ protection.entries, Missed glob entry.glob →
    ∀ path, selects glob path = true → selects entry.glob path = true →
      entry.reason.personMayGrant = true ∧
        ((∀ glob ∈ paths, ∀ entry ∈ protection.entries,
          mightOverlap selects glob entry.glob = false) → protection.lifted selects path = true)

variable {selects protection} {paths : List ScopeGlob}

/-- What is not refused whole a person may grant. -/
theorem grantable_of_guarded (hglob : Globset selects) (hguard : Guarded selects protection paths)
    (hwhole : refusesWhole (reaching paths (protection.reachedBy selects)) = false) :
    Grantable selects protection paths := by
  have hnone : ¬ ∃ glob ∈ paths, ∃ entry ∈ protection.entries,
      mightOverlap selects glob entry.glob = true ∧ entry.reason.personMayGrant = false := by
    rw [← refusesWhole_iff, hwhole]
    exact Bool.false_ne_true
  intro glob hg path hp entry he hep
  rcases mightOverlap_or_missed hglob hp hep with hoverlap | hmissed
  · by_contra hgrant
    exact hnone ⟨glob, hg, entry, he, hoverlap, by simpa using hgrant⟩
  · exact ((hguard.resolve_left hnone) glob hg entry he hmissed path hp hep).1

/-- What reaches nothing holds no protected path. -/
theorem reasonOf_of_guarded (hglob : Globset selects) (hguard : Guarded selects protection paths)
    (hnil : reaching paths (protection.reachedBy selects) = []) {glob : ScopeGlob}
    (hg : glob ∈ paths) {path : String} (hp : selects glob path = true) :
    protection.reasonOf selects path = none := by
  have hnone := reaching_eq_nil.mp hnil
  rw [Protected.reasonOf_eq_none]
  intro entry he hep
  rcases mightOverlap_or_missed hglob hp hep with hoverlap | hmissed
  · rw [hnone glob hg entry he] at hoverlap
    cases hoverlap
  · rcases hguard with ⟨other, ho, entry', he', hoverlap, -⟩ | hguard
    · rw [hnone other ho entry' he'] at hoverlap
      cases hoverlap
    · obtain ⟨hgrant, hlifted⟩ := hguard glob hg entry he hmissed path hp hep
      exact ⟨hgrant, hlifted hnone⟩

theorem keeps_of_guarded (hglob : Globset selects) {ask : Ask} {bounds : Bounds builds}
    (hguard : Guarded selects bounds.protection ask.paths) (touched : List String)
    (grantedSoFar : Nat) :
    Keeps selects bounds.protection (expand selects ask bounds touched grantedSoFar) := by
  cases h : expand selects ask bounds touched grantedSoFar with
  | deny denial => trivial
  | escalate paths because =>
    obtain ⟨rfl, hwhole⟩ := expand_escalate h
    exact grantable_of_guarded hglob hguard hwhole
  | grant paths decidedBy =>
    obtain ⟨rfl, hnil⟩ := expand_grant h
    exact fun glob hg path hp => reasonOf_of_guarded hglob hguard hnil hg hp

/-! ### The requests that show a miss -/

/-- Under `ask`, a request that is not refused whole waits. -/
theorem expand_requested
    (hwhole : refusesWhole (reaching paths (protection.reachedBy selects)) = false) :
    ∃ because, expand selects (.requested paths "" none)
      ⟨.ask, 0, none, protection, []⟩ [] 0 = .escalate paths because := by
  simp only [expand, screen, origin, hwhole]
  cases hreach : reaching paths (protection.reachedBy selects) with
  | nil => exact ⟨.modeAsk, rfl⟩
  | cons _ _ => exact ⟨.instructions, rfl⟩

/-- Under `ask`, paths a red output locates are granted when they reach nothing. -/
theorem expand_located (hnil : reaching paths (protection.reachedBy selects) = [])
    (criterion : String) :
    expand selects (.located paths criterion) ⟨.ask, 0, none, protection, []⟩ [] 0 =
      .grant paths (.evidence criterion) := by
  have hscreen : screen selects (.located paths criterion) ⟨.ask, 0, none, protection, []⟩ =
      .candidate ⟨paths, .evidence criterion, false⟩ := by
    simp [screen, origin, hnil, refusesWhole, precheckDenial, byMode, reachesAny]
  rw [expand, hscreen]
  rfl

/-! ## Main result -/

/-- **When a grant never covers a protected path.**  Over every request of these paths, and every
    offer of them: exactly when the pairs the overlap test misses share no path that a grant would
    have to spare. -/
theorem expand_keeps_protected (hglob : Globset selects) (protection : Protected builds)
    (paths : List ScopeGlob) :
    ((∀ (ask : Ask) (bounds : Bounds builds) (touched : List String) (grantedSoFar : Nat),
        ask.paths = paths → bounds.protection = protection →
          Keeps selects protection (expand selects ask bounds touched grantedSoFar)) ∧
      ∀ widenable offered,
        nodeOffer paths (protection.reachedBy selects) widenable = .ok offered →
          Grantable selects protection offered) ↔
      Guarded selects protection paths := by
  constructor
  · rintro ⟨hkeeps, -⟩
    rw [Guarded, or_iff_not_imp_left, ← refusesWhole_iff, Bool.not_eq_true]
    rintro hwhole glob hg entry he - path hp hep
    refine ⟨?_, fun hnone => ?_⟩
    · obtain ⟨because, hwaits⟩ := expand_requested hwhole
      have := hkeeps (.requested paths "" none) ⟨.ask, 0, none, protection, []⟩ [] 0 rfl rfl
      rw [hwaits] at this
      exact this glob hg path hp entry he hep
    · have := hkeeps (.located paths "") ⟨.ask, 0, none, protection, []⟩ [] 0 rfl rfl
      rw [expand_located (reaching_eq_nil.mpr hnone)] at this
      exact (Protected.reasonOf_eq_none.mp (this glob hg path hp) entry he hep).2
  · intro hguard
    refine ⟨?_, ?_⟩
    · rintro ask bounds touched grantedSoFar rfl rfl
      exact keeps_of_guarded hglob hguard touched grantedSoFar
    · intro widenable offered hoffer
      unfold nodeOffer at hoffer
      split at hoffer
      · cases hoffer
      simp only [] at hoffer
      split at hoffer
      · cases hoffer
      next hwhole =>
      split at hoffer
      · cases hoffer
      · cases hoffer
        exact grantable_of_guarded hglob hguard (by simpa [refusesWhole] using hwhole)

/-- Where the project denies nothing, a request for `src/*.rs` is guarded. -/
theorem expand_keeps_protected_src :
    (∀ (ask : Ask) (bounds : Bounds fun _ => true) (touched : List String) (grantedSoFar : Nat),
        ask.paths = ["src/*.rs"] → bounds.protection = .denying [] →
          Keeps plainSelects (.denying []) (expand plainSelects ask bounds touched grantedSoFar)) ∧
      ∀ widenable offered,
        nodeOffer ["src/*.rs"] ((Protected.denying []).reachedBy plainSelects) widenable =
            .ok offered →
          Grantable plainSelects (.denying []) offered :=
  (expand_keeps_protected plainSelects_globset _ _).mpr (.inr fun glob hg entry he hmissed =>
    absurd hmissed ((show ∀ glob ∈ ["src/*.rs"], ∀ entry ∈ fixedEntries [] [],
      ¬ Missed glob entry.glob by decide +kernel) glob hg entry he))

/-- A project that denies `**/` denies every path, and still a located `src/*.rs` is granted. -/
theorem not_expand_keeps_protected :
    ¬ ∀ (builds : List ScopeGlob → Bool) (selects : ScopeGlob → String → Bool), Globset selects →
      ∀ (ask : Ask) (bounds : Bounds builds) (touched : List String) (grantedSoFar : Nat),
        Keeps selects bounds.protection (expand selects ask bounds touched grantedSoFar) := by
  intro h
  have hnil : reaching ["src/*.rs"] ((Protected.denying ["**/"]).reachedBy plainSelects) = [] :=
    reaching_eq_nil.mpr (by decide +kernel)
  have hkeeps := h (fun _ => true) plainSelects plainSelects_globset
    (.located ["src/*.rs"] "cargo test") ⟨.ask, 0, none, .denying ["**/"], []⟩ [] 0
  rw [expand_located hnil] at hkeeps
  have hnone := Protected.reasonOf_eq_none.mp
    (hkeeps "src/*.rs" List.mem_cons_self "src/lib.rs" (by decide +kernel)) ⟨.projectDeny, "**/", false⟩
    List.mem_cons_self (by decide +kernel)
  cases hnone.1

end Guard

end Expansion

end Yunta
