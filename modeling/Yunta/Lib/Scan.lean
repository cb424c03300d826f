/-
  Scanners: machines that step on their own until nothing is left to read.

  1. **Runs** — `Reaches` follows the steps.  Where every step shrinks a size, `last` is the state a
     scan stops in, and every state on the way stops in the same one (`last_of_reaches`).

  2. **Conditions along a run** — `Always` asks a condition of every state a scan passes, and a scan
     that computes decides it (`always_of_checked`).

  3. **Simulation** — `agree`: two scanners that move in step, each by one step or by several, stop
     with the same answer.
-/
import Mathlib.Logic.Relation

set_option linter.unusedVariables false

namespace Scan

variable {σ τ β : Type*} (step : σ → Option σ) (size : σ → Nat)

/-! ## Runs -/

/-- The states a scan passes. -/
def Reaches : σ → σ → Prop := Relation.ReflTransGen fun s t => step s = some t

/-- Takes at most so many steps. -/
def run : Nat → σ → σ
  | 0, s => s
  | n + 1, s =>
    match step s with
    | none => s
    | some t => run n t

/-- Every step shrinks the state. -/
def Shrinks : Prop := ∀ s t, step s = some t → size t < size s

/-- The state a scan stops in. -/
def last (s : σ) : σ := run step (size s) s

variable {step size} {s t u : σ}

theorem Reaches.one (h : step s = some t) : Reaches step s t := .single h

theorem run_of_le (hshrinks : Shrinks step size) {n m : Nat} (hn : size s ≤ n) (hm : size s ≤ m) :
    run step n s = run step m s := by
  induction n generalizing s m with
  | zero =>
    cases m with
    | zero => rfl
    | succ m =>
      cases hstep : step s with
      | none => simp only [run, hstep]
      | some t =>
        have := hshrinks s t hstep
        omega
  | succ n ih =>
    cases hstep : step s with
    | none => cases m <;> simp only [run, hstep]
    | some t =>
      have hlt := hshrinks s t hstep
      cases m with
      | zero => omega
      | succ m =>
        simp only [run, hstep]
        exact ih (by omega) (by omega)

theorem last_of_none (h : step s = none) : last step size s = s := by
  rw [last]
  cases size s with
  | zero => rfl
  | succ n => simp only [run, h]

theorem last_of_step (hshrinks : Shrinks step size) (h : step s = some t) :
    last step size s = last step size t := by
  have hlt := hshrinks s t h
  rw [last, run_of_le hshrinks (Nat.le_refl _) (show size s ≤ size t + 1 + size s by omega),
    show size t + 1 + size s = (size t + size s) + 1 by omega]
  simp only [run, h]
  exact run_of_le hshrinks (by omega) (Nat.le_refl _)

/-- **Every state of a scan stops where the scan does.** -/
theorem last_of_reaches (hshrinks : Shrinks step size) (h : Reaches step s t) :
    last step size s = last step size t := by
  induction h with
  | refl => rfl
  | tail _ hstep ih => rw [ih, last_of_step hshrinks hstep]

theorem size_le_of_reaches (hshrinks : Shrinks step size) (h : Reaches step s t) :
    size t ≤ size s := by
  induction h with
  | refl => exact Nat.le_refl _
  | tail _ hstep ih =>
    have := hshrinks _ _ hstep
    omega

theorem size_lt_of_reaches (hshrinks : Shrinks step size) (h : Reaches step s t) (hne : s ≠ t) :
    size t < size s := by
  rcases Relation.ReflTransGen.cases_head h with heq | ⟨u, hstep, hrest⟩
  · exact absurd heq hne
  · have := hshrinks _ _ hstep
    have := size_le_of_reaches hshrinks hrest
    omega

/-! ## Conditions along a run -/

variable (step) in
/-- A condition on every state a scan passes. -/
def Always (meets : σ → Prop) (s : σ) : Prop := ∀ t, Reaches step s t → meets t

variable {meets : σ → Prop}

theorem Always.here (h : Always step meets s) : meets s := h s .refl

theorem Always.reaches (h : Always step meets s) (hreach : Reaches step s t) :
    Always step meets t := fun u hu => h u (hreach.trans hu)

variable (step) in
/-- Whether the condition holds in so many states and the scan has stopped by then. -/
def checked (meets : σ → Prop) [DecidablePred meets] : Nat → σ → Bool
  | 0, _ => false
  | n + 1, s =>
    meets s && match step s with
      | none => true
      | some t => checked meets n t

/-- **A scan that computes decides a condition on every state of it.** -/
theorem always_of_checked [DecidablePred meets] {n : Nat} (h : checked step meets n s = true) :
    Always step meets s := by
  induction n generalizing s with
  | zero => cases h
  | succ n ih =>
    rw [checked, Bool.and_eq_true] at h
    obtain ⟨hhere, hrest⟩ := h
    intro t hreach
    rcases Relation.ReflTransGen.cases_head hreach with rfl | ⟨u, hstep, hreach⟩
    · exact of_decide_eq_true hhere
    · rw [hstep] at hrest
      exact ih hrest t hreach

/-! ## Simulation -/

/-- **Simulation rule**: related scanners stop with the same answer, where each pair of them either has
    stopped with it or moves on to a related pair. -/
theorem agree {step' : τ → Option τ} {size' : τ → Nat} (hshrinks : Shrinks step size)
    (hshrinks' : Shrinks step' size') (R : σ → τ → Prop) (answer : σ → β) (answer' : τ → β)
    (hmoves : ∀ s t, R s t →
      step s = none ∧ step' t = none ∧ answer s = answer' t ∨
      ∃ s' t', Reaches step s s' ∧ Reaches step' t t' ∧ size s' < size s ∧ R s' t')
    {s : σ} {t : τ} (h : R s t) :
    answer (last step size s) = answer' (last step' size' t) := by
  generalize hn : size s = n
  induction n using Nat.strongRecOn generalizing s t with
  | _ n ih =>
    rcases hmoves s t h with ⟨hs, ht, heq⟩ | ⟨s', t', hs, ht, hlt, hrel⟩
    · rw [last_of_none hs, last_of_none ht, heq]
    · rw [last_of_reaches hshrinks hs, last_of_reaches hshrinks' ht]
      exact ih (size s') (by omega) hrel rfl

end Scan
