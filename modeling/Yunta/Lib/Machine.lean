/-
  Machines that take acts one by one, and the states they reach.

  1. **Runs** — a machine is a partial `step`: an act the state does not allow is not taken.
     `Reached step meets start s` says acts lead from `start` to `s`, each of them meeting a
     condition on the state before it.

  2. **Rules** — `Reached.invariant` carries what every such step keeps, `Reached.mono` weakens the
     condition, and `exists_reached` reads a reachable state off a list of acts that computes.
-/
import Mathlib.Logic.Basic

set_option linter.unusedVariables false

namespace Machine

variable {σ α : Type*} (step : σ → α → Option σ)

/-- The states reached by acts that each meet a condition on the state before them. -/
inductive Reached (meets : σ → α → Prop) (start : σ) : σ → Prop
  | refl : Reached meets start start
  | snoc {s s' : σ} (act : α) :
      Reached meets start s → meets s act → step s act = some s' → Reached meets start s'

/-- No condition on the acts. -/
def Free (s : σ) (act : α) : Prop := True

instance (s : σ) (act : α) : Decidable (Free s act) := .isTrue trivial

/-- Takes acts in order, and stops at one that does not meet the condition. -/
def run (meets : σ → α → Prop) [∀ s act, Decidable (meets s act)] : σ → List α → Option σ
  | s, [] => some s
  | s, act :: rest => if meets s act then (step s act).bind fun s' => run meets s' rest else none

variable {step} {meets : σ → α → Prop} {start : σ}

/-- **Invariant rule**: what every step that meets the condition keeps, every state reached has. -/
theorem Reached.invariant {P : σ → Prop} {s : σ} (h : Reached step meets start s) (h0 : P start)
    (hstep : ∀ s act s', P s → meets s act → step s act = some s' → P s') : P s := by
  induction h with
  | refl => exact h0
  | snoc act _ hmeets htaken ih => exact hstep _ act _ ih hmeets htaken

theorem Reached.trans {s s' : σ} (h : Reached step meets start s) (h' : Reached step meets s s') :
    Reached step meets start s' := by
  induction h' with
  | refl => exact h
  | snoc act _ hmeets htaken ih => exact .snoc act ih hmeets htaken

/-- A condition that asks for less reaches more. -/
theorem Reached.mono {less : σ → α → Prop} {s : σ} (h : Reached step meets start s)
    (hless : ∀ s act, meets s act → less s act) : Reached step less start s := by
  induction h with
  | refl => exact .refl
  | snoc act _ hmeets htaken ih => exact .snoc act ih (hless _ act hmeets) htaken

section
variable [∀ s act, Decidable (meets s act)]

theorem reached_of_run {acts : List α} {s : σ} (h : run step meets start acts = some s) :
    Reached step meets start s := by
  induction acts generalizing start with
  | nil =>
    cases h
    exact .refl
  | cons act rest ih =>
    rw [run] at h
    split at h
    · next hmeets =>
      obtain ⟨s', htaken, hrest⟩ := Option.bind_eq_some_iff.mp h
      exact (Reached.snoc act .refl hmeets htaken).trans (ih hrest)
    · cases h

end

/-- **Acts that compute reach a state** where what they compute holds. -/
theorem exists_reached (step : σ → α → Option σ) (meets : σ → α → Prop)
    [∀ s act, Decidable (meets s act)] (start : σ) (acts : List α) (p : σ → Bool)
    (h : (run step meets start acts).any p = true) :
    ∃ s, Reached step meets start s ∧ p s = true := by
  obtain ⟨s, hs, hp⟩ := (Option.any_eq_true ..).mp h
  exact ⟨s, reached_of_run hs, hp⟩

end Machine
