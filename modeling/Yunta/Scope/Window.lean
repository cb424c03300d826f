/-
  Deciding a request against the count of the engine's own grants.

  1. **Window** — a batch counts the engine's grants in a `GrantWindow`, seeded from those the log
     holds: a decision is made against the count, and a grant raises it.

  2. **The cap's part** — `leftToCap` says when nothing but the cap is left to decide an ask.  Such
     an ask is granted below the cap and escalated from it on (`expand_of_leftToCap`); any other is
     decided alike at every count (`expand_congr`).
-/
import Yunta.Ledgers.Scope
import Yunta.Scope.Expansion

set_option linter.unusedVariables false

namespace Yunta.Expansion

/-! ## The window -/

/-- The engine's grants in one run, counted by one window per batch. -/
structure GrantWindow where
  engineGrants : Nat
  deriving DecidableEq

/-- A window that starts from the grants the log already holds for the run. -/
def GrantWindow.seeded (engineGrants : Nat) : GrantWindow := ⟨engineGrants⟩

/-- The engine's grants this window counts so far. -/
def GrantWindow.granted (window : GrantWindow) : Nat := window.engineGrants

def Decision.isGrant : Decision → Bool
  | .grant .. => true
  | _ => false

variable {builds : List ScopeGlob → Bool}

/-- Decides a candidate against the count, which a grant raises.  The decision comes with the count
    it leaves. -/
def GrantWindow.settle (window : GrantWindow) (c : Candidate) (touched : Nat)
    (bounds : Bounds builds) : (Decision × Nat) × GrantWindow :=
  let decision := Expansion.settle c touched window.engineGrants bounds
  let window := if decision.isGrant then ⟨window.engineGrants + 1⟩ else window
  ((decision, window.engineGrants), window)

variable (selects : ScopeGlob → String → Bool)

/-- The files a candidate's bound counts: none when its mode bounds nothing. -/
def touchedOf (builds : List ScopeGlob → Bool) (c : Candidate) (touched : List String) : Nat :=
  if c.bounded then touchedUnder selects builds c touched else 0

/-- Decides one request against a window: what `screen` leaves open is settled against its count. -/
def GrantWindow.expand (window : GrantWindow) (ask : Ask) (bounds : Bounds builds)
    (touched : List String) : (Decision × Nat) × GrantWindow :=
  match screen selects ask bounds with
  | .settled decision => ((decision, window.granted), window)
  | .candidate c => window.settle c (touchedOf selects builds c touched) bounds

/-- Whether nothing but the cap is left to decide an ask. -/
def leftToCap (ask : Ask) (bounds : Bounds builds) (touched : List String) : Bool :=
  match screen selects ask bounds with
  | .settled _ => false
  | .candidate c => !(c.bounded && touchedOf selects builds c touched > bounds.maxFiles)

/-- What the cap makes of an ask left to it. -/
def byCap (bounds : Bounds builds) (paths : List ScopeGlob) (decidedBy : Decider)
    (grantedSoFar : Nat) : Decision :=
  match bounds.maxPerRun with
  | some cap =>
    if grantedSoFar ≥ cap then .escalate paths (.capExhausted grantedSoFar cap)
    else .grant paths decidedBy
  | none => .grant paths decidedBy

/-! ## What a window decides -/

section
variable {selects} {ask : Ask} {bounds : Bounds builds} {touched : List String}

/-- A window decides as its count does. -/
theorem GrantWindow.expand_decision (window : GrantWindow) (selects : ScopeGlob → String → Bool)
    (ask : Ask) (bounds : Bounds builds) (touched : List String) : (window.expand selects ask bounds touched).1.1 =
      Expansion.expand selects ask bounds touched window.granted := by
  unfold GrantWindow.expand Expansion.expand
  cases screen selects ask bounds <;> rfl

/-- A grant raises the count by one, and nothing else moves it. -/
theorem GrantWindow.expand_window (window : GrantWindow) (selects : ScopeGlob → String → Bool)
    (ask : Ask) (bounds : Bounds builds) (touched : List String) : (window.expand selects ask bounds touched).2.granted =
      window.granted + if (window.expand selects ask bounds touched).1.1.isGrant then 1 else 0 := by
  have hdecision := window.expand_decision selects ask bounds touched
  unfold GrantWindow.expand at hdecision ⊢
  cases hscreen : screen selects ask bounds with
  | settled decision =>
    rcases screen_cases selects ask bounds with ⟨denial, h⟩ | ⟨-, ⟨because, h⟩ | ⟨-, c, -, h⟩⟩
    · obtain rfl : decision = .deny denial := by simpa [hscreen] using h
      rfl
    · obtain rfl : decision = .escalate ask.paths because := by simpa [hscreen] using h
      rfl
    · rw [hscreen] at h
      cases h
  | candidate c =>
    show (if _ then _ else _ : GrantWindow).granted = _
    unfold GrantWindow.settle
    dsimp only
    split <;> rfl

/-! ## The cap's part -/

/-- **An ask left to the cap** is granted below it, and waits for a person from it on. -/
theorem expand_of_leftToCap (h : leftToCap selects ask bounds touched = true) :
    ∃ decidedBy, ∀ grantedSoFar, expand selects ask bounds touched grantedSoFar =
      byCap bounds ask.paths decidedBy grantedSoFar := by
  unfold leftToCap at h
  rcases screen_cases selects ask bounds with
    ⟨denial, hs⟩ | ⟨-, ⟨because, hs⟩ | ⟨-, c, hpaths, hs⟩⟩
  · rw [hs] at h
    cases h
  · rw [hs] at h
    cases h
  rw [hs] at h
  have hbound : (c.bounded && touchedOf selects builds c touched > bounds.maxFiles) = false :=
    (Bool.not_eq_true' _).mp h
  refine ⟨c.decidedBy, fun grantedSoFar => ?_⟩
  unfold expand
  rw [hs]
  show settle c (touchedOf selects builds c touched) grantedSoFar bounds = _
  rw [settle, hbound, if_neg (by simp), hpaths]
  rfl

/-- **Any other ask** is decided alike at every count. -/
theorem expand_congr (h : leftToCap selects ask bounds touched = false) (n m : Nat) :
    expand selects ask bounds touched n = expand selects ask bounds touched m := by
  unfold leftToCap at h
  unfold expand
  cases hs : screen selects ask bounds with
  | settled decision => rfl
  | candidate c =>
    rw [hs] at h
    have hbound : (c.bounded && touchedOf selects builds c touched > bounds.maxFiles) = true :=
      (Bool.not_eq_false' ..).mp h
    show settle c (touchedOf selects builds c touched) n bounds =
      settle c (touchedOf selects builds c touched) m bounds
    rw [settle, settle, if_pos hbound, if_pos hbound]

/-- Only an ask left to the cap is granted. -/
theorem leftToCap_of_grant {grantedSoFar : Nat}
    (h : (expand selects ask bounds touched grantedSoFar).isGrant = true) :
    leftToCap selects ask bounds touched = true := by
  by_contra hleft
  rw [Bool.not_eq_true] at hleft
  unfold leftToCap at hleft
  unfold expand at h
  rcases screen_cases selects ask bounds with
    ⟨denial, hs⟩ | ⟨-, ⟨because, hs⟩ | ⟨-, c, hpaths, hs⟩⟩
  · rw [hs] at h
    cases h
  · rw [hs] at h
    cases h
  · rw [hs] at h hleft
    have hbound : (c.bounded && touchedOf selects builds c touched > bounds.maxFiles) = true :=
      (Bool.not_eq_false' ..).mp hleft
    change (settle c (touchedOf selects builds c touched) grantedSoFar bounds).isGrant = true at h
    rw [settle, if_pos hbound] at h
    cases h

/-- Settling denies nothing but too many files. -/
theorem settle_deny {c : Candidate} {n grantedSoFar : Nat} {denial : Denial}
    (h : settle c n grantedSoFar bounds = .deny denial) :
    denial = .tooManyFiles n bounds.maxFiles := by
  unfold settle at h
  split at h
  · cases h
    rfl
  · cases hcap : bounds.maxPerRun with
    | none =>
      rw [hcap] at h
      cases h
    | some cap =>
      simp only [hcap] at h
      split at h <;> cases h

/-- A grant a decision makes is the engine's: a rule's, or a red criterion's. -/
theorem expand_engine {grantedSoFar : Nat} {paths : List ScopeGlob} {decidedBy : Decider}
    (h : expand selects ask bounds touched grantedSoFar = .grant paths decidedBy) :
    decidedBy.isPerson = false := by
  have horigin : (origin ask bounds).2.2.1.isPerson = false := by cases ask <;> rfl
  have hscreen : ∀ c, screen selects ask bounds = .candidate c → c.decidedBy.isPerson = false := by
    intro c hc
    unfold screen at hc
    generalize origin ask bounds = o at horigin hc
    obtain ⟨asked, proposal, by_, bounded⟩ := o
    simp only [] at hc
    split at hc
    · cases hc
    split at hc
    · cases hc
    split at hc
    · cases hc
    split at hc
    · cases hc
    · cases hc
      exact horigin
  unfold expand at h
  rcases screen_cases selects ask bounds with
    ⟨denial, hs⟩ | ⟨-, ⟨because, hs⟩ | ⟨-, c, -, hs⟩⟩
  · rw [hs] at h
    cases h
  · rw [hs] at h
    cases h
  · rw [hs] at h
    rcases settle_cases c (touchedOf selects builds c touched) grantedSoFar bounds with
      ⟨_, hd⟩ | ⟨_, hd⟩ | hd
    · cases hd.symm.trans h
    · cases hd.symm.trans h
    · cases hd.symm.trans h
      exact hscreen c hs

/-- **When a capped ask is granted**: it is left to the cap, and the count is below it. -/
theorem isGrant_iff {cap grantedSoFar : Nat} (hcap : bounds.maxPerRun = some cap) :
    (expand selects ask bounds touched grantedSoFar).isGrant = true ↔
      leftToCap selects ask bounds touched = true ∧ grantedSoFar < cap := by
  constructor
  · intro h
    have hleft := leftToCap_of_grant h
    obtain ⟨decidedBy, hexpand⟩ := expand_of_leftToCap hleft
    rw [hexpand, byCap, hcap] at h
    refine ⟨hleft, ?_⟩
    by_contra hge
    have hreached : grantedSoFar ≥ cap := by omega
    simp only [if_pos hreached] at h
    cases h
  · rintro ⟨hleft, hlt⟩
    obtain ⟨decidedBy, hexpand⟩ := expand_of_leftToCap hleft
    have hbelow : ¬ grantedSoFar ≥ cap := by omega
    rw [hexpand, byCap, hcap]
    simp only [if_neg hbelow]
    rfl

end

end Yunta.Expansion
