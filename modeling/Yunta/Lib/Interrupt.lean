/-
  A value that waits interrupt and give back.

  1. **The machine** — an `Interrupt` is at rest with a value, or held with the value it was taken
     from.  A wait opens and holds it, the wait's close gives it back, a wait opened again while one
     is held holds the same value, and a replacement puts it at rest with a value of its own.

  2. **Rules** — `Path.kept_eq`: only a replacement changes the value kept.  `Path.held_open`: what
     is held has a wait open.  `Path.restores`: a path of waits that ends with none open gives back
     the value it found.
-/
import Mathlib.Data.List.Basic

set_option linter.unusedVariables false

/-- What an event does to an interruptible value. -/
inductive Interrupt.Move where
  | opens | closes | replaces | quiet
  deriving DecidableEq

/-- A value at rest, or the value a wait holds. -/
inductive Interrupt (α : Type) where
  | atRest (value : α)
  | held (value : α)

namespace Interrupt

variable {α : Type}

/-- The value itself, held or not. -/
def kept : Interrupt α → α
  | atRest value => value
  | held value => value

def isHeld : Interrupt α → Bool
  | atRest _ => false
  | held _ => true

/-- One move of the machine. -/
inductive Step : Interrupt α → Move → Interrupt α → Prop
  | opens (value : α) : Step (atRest value) .opens (held value)
  | reopens (value : α) : Step (held value) .opens (held value)
  | closes (value : α) : Step (held value) .closes (atRest value)
  | idle (value : α) : Step (atRest value) .closes (atRest value)
  | replaces (w : Interrupt α) (value : α) : Step w .replaces (atRest value)
  | quiet (w : Interrupt α) : Step w .quiet w

/-- Moves one after the other. -/
inductive Path : Interrupt α → List Move → Interrupt α → Prop
  | nil (w : Interrupt α) : Path w [] w
  | cons {w w' w'' : Interrupt α} {m : Move} {ms : List Move} :
      Step w m w' → Path w' ms w'' → Path w (m :: ms) w''

/-- Whether the last wait of `ms` to open or close left one open. -/
def openAfter (was : Bool) (ms : List Move) : Bool :=
  ms.foldl (fun open_ m =>
    match m with
    | .opens => true
    | .closes => false
    | .replaces | .quiet => open_) was

/-- Only a replacement changes the value kept. -/
theorem Path.kept_eq {w w' : Interrupt α} {ms : List Move} (h : Path w ms w')
    (hms : Move.replaces ∉ ms) : w'.kept = w.kept := by
  induction h with
  | nil w => rfl
  | cons hstep _ ih =>
    have hrest := ih (List.not_mem_of_not_mem_cons hms)
    cases hstep with
    | replaces w value => exact absurd (List.mem_cons_self ..) hms
    | _ => exact hrest

/-- A value is held only while a wait is open. -/
theorem Path.held_open {w w' : Interrupt α} {ms : List Move} (h : Path w ms w') {was : Bool}
    (hwas : w.isHeld = true → was = true) (hheld : w'.isHeld = true) :
    openAfter was ms = true := by
  induction h generalizing was with
  | nil w => exact hwas hheld
  | cons hstep _ ih =>
    refine ih ?_ hheld
    cases hstep with
    | quiet w => exact hwas
    | _ => simp [isHeld]

/-- **A path of waits that ends with none open gives back the value it found.** -/
theorem Path.restores {v : α} {w' : Interrupt α} {ms : List Move} (h : Path (atRest v) ms w')
    (hms : Move.replaces ∉ ms) (hclosed : openAfter false ms = false) : w' = atRest v := by
  have hkept := h.kept_eq hms
  cases w' with
  | atRest value => rw [show value = v from hkept]
  | held value =>
    have hopen : openAfter false ms = true := h.held_open (fun hc => nomatch hc) rfl
    rw [hclosed] at hopen
    cases hopen

end Interrupt
