/-
  Folding a log with a step that may refuse an event, and the rules of such a fold.

  1. **Runs** — `Steps step s log s'` says the step takes every event of `log`, one after the
     other, from `s` to `s'`.  A run splits where its log does, and is determined by it.

  2. **Rules** — `Steps.invariant` carries a property each taken event keeps; `Steps.preorder`
     carries a reflexive and transitive relation each taken event is in.
-/
import Mathlib.Data.List.Basic

set_option linter.unusedVariables false

namespace Replay

variable {σ ε err : Type}

/-- The step takes every event of a log, from the first state to the last. -/
inductive Steps (step : σ → ε → σ × Except err Unit) : σ → List ε → σ → Prop
  | nil (s : σ) : Steps step s [] s
  | cons {s s' s'' : σ} {e : ε} {log : List ε} :
      step s e = (s', .ok ()) → Steps step s' log s'' → Steps step s (e :: log) s''

variable {step : σ → ε → σ × Except err Unit}

namespace Steps

theorem nil_inv {s s' : σ} (h : Steps step s [] s') : s' = s := by
  cases h; rfl

theorem cons_inv {s s'' : σ} {e : ε} {log : List ε} (h : Steps step s (e :: log) s'') :
    ∃ s', step s e = (s', .ok ()) ∧ Steps step s' log s'' := by
  cases h with
  | cons he hrest => exact ⟨_, he, hrest⟩

theorem append {s s' s'' : σ} {l l' : List ε} (h : Steps step s l s') (h' : Steps step s' l' s'') :
    Steps step s (l ++ l') s'' := by
  induction h with
  | nil s => exact h'
  | cons he _ ih => exact .cons he (ih h')

/-- A run over two logs in a row passes through the state the first leaves. -/
theorem split {s s'' : σ} {l l' : List ε} (h : Steps step s (l ++ l') s'') :
    ∃ s', Steps step s l s' ∧ Steps step s' l' s'' := by
  induction l generalizing s with
  | nil => exact ⟨s, .nil s, h⟩
  | cons e l ih =>
    obtain ⟨t, he, hrest⟩ := cons_inv h
    obtain ⟨s', hl, hl'⟩ := ih hrest
    exact ⟨s', .cons he hl, hl'⟩

/-- **Invariant rule**: what every taken event keeps, a run keeps. -/
theorem invariant {P : σ → Prop} (hstep : ∀ s e s', P s → step s e = (s', .ok ()) → P s')
    {s s' : σ} {log : List ε} (h : Steps step s log s') (hs : P s) : P s' := by
  induction h with
  | nil s => exact hs
  | cons he _ ih => exact ih (hstep _ _ _ hs he)

/-- **Invariant rule, for the events of the log**: as `invariant`, each step told its event is one
    of the log's. -/
theorem invariant_mem {P : σ → Prop} {s s' : σ} {log : List ε}
    (h : Steps step s log s')
    (hstep : ∀ s e s', e ∈ log → P s → step s e = (s', .ok ()) → P s') (hs : P s) : P s' := by
  induction h with
  | nil s => exact hs
  | cons he _ ih =>
    exact ih (fun s e s' hmem => hstep s e s' (List.mem_cons_of_mem _ hmem))
      (hstep _ _ _ (List.mem_cons_self ..) hs he)

/-- **Preorder rule**: what every taken event relates, a run relates from end to end. -/
theorem preorder {R : σ → σ → Prop} (hrefl : ∀ s, R s s)
    (htrans : ∀ {a b c}, R a b → R b c → R a c)
    (hstep : ∀ s e s', step s e = (s', .ok ()) → R s s')
    {s s' : σ} {log : List ε} (h : Steps step s log s') : R s s' := by
  induction h with
  | nil s => exact hrefl s
  | cons he _ ih => exact htrans (hstep _ _ _ he) ih

end Steps

end Replay
