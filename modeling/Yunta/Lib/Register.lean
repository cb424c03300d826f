/-
  What a history last set, while nothing cleared it since.

  1. **Registers** — a `Register` says what an entry does, given the entries before it: it sets the
     value held, clears it, or keeps it.  `held` reads a whole history.

  2. **Windows** — `held_eq_some_iff`: the value held is one an entry set, which every entry after it
     keeps.  `held_of_plain` reads that for a register that looks at no entry but the one it moves on.

  3. **Readings** — `eq_held`: what moves as a register does at every step is what it holds.
-/
import Mathlib.Data.List.Induction

set_option linter.unusedVariables false

variable {α β : Type*}

/-- What one entry of a history does to the value held. -/
inductive Register.Move (β : Type*) where
  | set (value : β)
  | clear
  | keep

/-- Carries out a move. -/
def Register.Move.on : Register.Move β → Option β → Option β
  | .set value, _ => some value
  | .clear, _ => none
  | .keep, held => held

/-- What each entry does, given the entries before it. -/
abbrev Register (α β : Type*) := List α → α → Register.Move β

namespace Register

variable (register : Register α β)

/-- What a history holds, its latest entry first. -/
def heldBack : List α → Option β
  | [] => none
  | entry :: before => (register before.reverse entry).on (heldBack before)

/-- What a history holds. -/
def held (history : List α) : Option β := register.heldBack history.reverse

@[simp] theorem held_nil : register.held [] = none := rfl

theorem held_snoc (history : List α) (entry : α) :
    register.held (history ++ [entry]) = (register history entry).on (register.held history) := by
  rw [held, List.reverse_append]
  show (register history.reverse.reverse entry).on (register.heldBack history.reverse) = _
  rw [List.reverse_reverse, held]

variable {register}

/-- **A value is held from the entry that set it**, through entries that each keep it. -/
theorem held_eq_some_iff {history : List α} {value : β} :
    register.held history = some value ↔
      ∃ before entry after, history = before ++ entry :: after ∧
        register before entry = .set value ∧
        ∀ mid later rest, after = mid ++ later :: rest →
          register (before ++ entry :: mid) later = .keep := by
  induction history using List.reverseRecOn with
  | nil => simp
  | append_singleton history last ih =>
    rw [held_snoc]
    constructor
    · intro h
      cases hmove : register history last with
      | set new =>
        rw [hmove] at h
        obtain rfl : new = value := Option.some.inj h
        refine ⟨history, last, [], rfl, hmove, ?_⟩
        intro mid later rest hafter
        simp at hafter
      | clear =>
        rw [hmove] at h
        cases h
      | keep =>
        rw [hmove] at h
        obtain ⟨before, entry, after, rfl, hset, hkeep⟩ := ih.mp h
        refine ⟨before, entry, after ++ [last], by simp, hset, ?_⟩
        intro mid later rest hafter
        -- the entry kept last, or one kept before it
        rcases List.eq_nil_or_concat rest with rfl | ⟨front, final, rfl⟩
        · obtain ⟨rfl, hlast⟩ := List.append_inj' hafter rfl
          obtain rfl : last = later := by simpa using hlast
          exact hmove
        · have hsplit : after ++ [last] = (mid ++ later :: front) ++ [final] := by
            rw [hafter]
            simp
          exact hkeep mid later front (List.append_inj' hsplit rfl).1
    · rintro ⟨before, entry, after, hsplit, hset, hkeep⟩
      rcases List.eq_nil_or_concat after with rfl | ⟨front, final, rfl⟩
      · obtain ⟨rfl, hlast⟩ := List.append_inj' hsplit rfl
        obtain rfl : last = entry := by simpa using hlast
        rw [hset]
        rfl
      · have hcut : history ++ [last] = (before ++ entry :: front) ++ [final] := by
          rw [hsplit]
          simp
        obtain ⟨rfl, hlast⟩ := List.append_inj' hcut rfl
        obtain rfl : last = final := by simpa using hlast
        rw [hkeep front last [] (by simp)]
        refine ih.mpr ⟨before, entry, front, rfl, hset, ?_⟩
        intro mid later rest hfront
        exact hkeep mid later (rest ++ [last]) (by simp [hfront])

/-- The window of a register that looks at no entry before the one it moves on. -/
theorem held_of_plain {move : α → Move β} {history : List α} {value : β} :
    held (fun _ entry => move entry) history = some value ↔
      ∃ before entry after, history = before ++ entry :: after ∧ move entry = .set value ∧
        ∀ later ∈ after, move later = .keep := by
  rw [held_eq_some_iff]
  constructor
  · rintro ⟨before, entry, after, hsplit, hset, hkeep⟩
    refine ⟨before, entry, after, hsplit, hset, fun later hmem => ?_⟩
    obtain ⟨mid, rest, hafter⟩ := List.append_of_mem hmem
    exact hkeep mid later rest hafter
  · rintro ⟨before, entry, after, hsplit, hset, hkeep⟩
    refine ⟨before, entry, after, hsplit, hset, fun mid later rest hafter => ?_⟩
    exact hkeep later (by simp [hafter])

/-- **What moves as a register does is what it holds**, over every history whose parts meet what the
    moves rest on. -/
theorem eq_held (read : List α → Option β) {P : List α → Prop}
    (hfront : ∀ history entry, P (history ++ [entry]) → P history) (hnil : read [] = none)
    (hsnoc : ∀ history entry, P (history ++ [entry]) →
      read (history ++ [entry]) = (register history entry).on (read history))
    {history : List α} (h : P history) : read history = register.held history := by
  induction history using List.reverseRecOn with
  | nil => exact hnil
  | append_singleton history entry ih =>
    rw [hsnoc history entry h, held_snoc, ih (hfront history entry h)]

end Register
