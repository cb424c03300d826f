/-
  Computations that hand on a value and add to a log.

  1. **What one hands on** — `Yields log x a quiet`: from every state `x` hands on `a`, only adds to
     the log, and adds nothing exactly where `quiet` holds.

  2. **Composition** — a value, one after another, and a list taken item by item: each is quiet
     exactly where all of its parts are.
-/
import Mathlib.Logic.Basic

set_option linter.unusedVariables false

namespace Yunta.Logged

variable {σ δ α β γ : Type} (log : σ → List δ)

/-- From every state `x` hands on `a`; it only adds to the log, and nothing exactly where `quiet`. -/
def Yields (x : StateM σ α) (a : α) (quiet : Prop) : Prop :=
  ∀ s, ∃ s' more, x.run s = pure (a, s') ∧ log s' = log s ++ more ∧ (more = [] ↔ quiet)

/-- What `x` hands on from a state. -/
def result (x : StateM σ α) (s : σ) : α := (x.run s).run.1

variable {log}

namespace Yields

variable {x : StateM σ α} {a : α} {p q : Prop}

theorem of_iff (h : Yields log x a p) (hpq : p ↔ q) : Yields log x a q := by
  intro s
  obtain ⟨s', more, hrun, hlog, hquiet⟩ := h s
  exact ⟨s', more, hrun, hlog, hquiet.trans hpq⟩

theorem result_eq (h : Yields log x a p) (s : σ) : result x s = a := by
  obtain ⟨s', more, hrun, -⟩ := h s
  rw [result, hrun]
  rfl

/-- What is quiet leaves the log as it was, and only that. -/
theorem log_eq_iff (h : Yields log x a p) (s : σ) : log (x.run s).run.2 = log s ↔ p := by
  obtain ⟨s', more, hrun, hlog, hquiet⟩ := h s
  rw [hrun, ← hquiet]
  show log s' = log s ↔ _
  rw [hlog]
  exact List.append_right_eq_self

theorem ret (a : α) : Yields log (pure a : StateM σ α) a True := by
  intro s
  exact ⟨s, [], rfl, (List.append_nil _).symm, by simp⟩

/-- What changes only what is not the log is quiet. -/
theorem change {f : σ → σ} (h : ∀ s, log (f s) = log s) :
    Yields log (modify f : StateM σ Unit) () True := by
  intro s
  exact ⟨f s, [], rfl, by rw [h, List.append_nil], by simp⟩

/-- What adds an entry is never quiet. -/
theorem adds {f : σ → σ} (h : ∀ s, ∃ entry, log (f s) = log s ++ [entry]) :
    Yields log (modify f : StateM σ Unit) () False := by
  intro s
  obtain ⟨entry, hentry⟩ := h s
  exact ⟨f s, [entry], rfl, hentry, by simp⟩

theorem andThen {f : α → StateM σ β} {b : β} (hx : Yields log x a p) (hf : Yields log (f a) b q) :
    Yields log (x >>= f) b (p ∧ q) := by
  intro s
  obtain ⟨s', more, hrun, hlog, hquiet⟩ := hx s
  obtain ⟨s'', more', hrun', hlog', hquiet'⟩ := hf s'
  refine ⟨s'', more ++ more', ?_, ?_, ?_⟩
  · show (x.run s >>= fun r => (f r.1).run r.2) = _
    rw [hrun]
    exact hrun'
  · rw [hlog', hlog, List.append_assoc]
  · rw [List.append_eq_nil_iff, hquiet, hquiet']

theorem thenRet (h : Yields log x a p) (g : α → β) :
    Yields log (x >>= fun r => pure (g r)) (g a) p :=
  (h.andThen (ret (g a))).of_iff (iff_of_eq (and_true p))

/-- What changes only what is not the log leaves what follows as it is. -/
theorem after {f : σ → σ} (hf : ∀ s, log (f s) = log s) {y : StateM σ β} {b : β}
    (hy : Yields log y b q) : Yields log (modify f >>= fun _ => y) b q :=
  ((change hf).andThen hy).of_iff (iff_of_eq (true_and q))

/-- What is read of the state may be anything, where all that follows is the same for each. -/
theorem reading {f : σ → StateM σ β} {b : β} (h : ∀ held, Yields log (f held) b q) :
    Yields log ((get : StateM σ σ) >>= f) b q := by
  intro s
  exact h s s

theorem map {f : α → β} (h : Yields log x a p) : Yields log (f <$> x) (f a) p := by
  intro s
  obtain ⟨s', more, hrun, hlog, hquiet⟩ := h s
  refine ⟨s', more, ?_, hlog, hquiet⟩
  show (x.run s >>= fun r => pure (f r.1, r.2)) = _
  rw [hrun]
  rfl

/-- A list taken item by item, each handed on as `g` says. -/
theorem mapM {f : α → StateM σ β} {g : α → β} {p : α → Prop} {items : List α}
    (h : ∀ item ∈ items, Yields log (f item) (g item) (p item)) :
    Yields log (items.mapM f) (items.map g) (∀ item ∈ items, p item) := by
  induction items with
  | nil => simpa using @ret σ δ _ log ([] : List β)
  | cons item rest ih =>
    rw [List.mapM_cons]
    have hrest := ih fun other hmem => h other (List.mem_cons_of_mem _ hmem)
    have hcons : Yields log (rest.mapM f >>= fun mapped => pure (g item :: mapped))
        (g item :: rest.map g) _ := hrest.andThen (ret _)
    refine ((h item List.mem_cons_self).andThen hcons).of_iff ?_
    simp

/-- What is gathered item by item: an item adds to it what `g` says. -/
theorem foldlM {f : γ → α → StateM σ γ} {g : γ → α → γ} {p : α → Prop} {items : List α}
    (h : ∀ item ∈ items, ∀ held, Yields log (f held item) (g held item) (p item)) (held : γ) :
    Yields log (items.foldlM f held) (items.foldl g held) (∀ item ∈ items, p item) := by
  induction items generalizing held with
  | nil => simpa using @ret σ δ _ log held
  | cons item rest ih =>
    rw [List.foldlM_cons]
    have hrest := ih (fun other hmem => h other (List.mem_cons_of_mem _ hmem)) (g held item)
    refine ((h item List.mem_cons_self held).andThen hrest).of_iff ?_
    simp

end Yields

end Yunta.Logged
