/-
  Records kept in a list, each under a key of its own.

  1. **Amending** — `amend key k f l` rewrites the record under `k` and leaves the others: among
     distinct keys it changes one entry in place (`amend_split`), and a sum over the records by the
     new value less the old (`sum_amend`).

  2. **Filters** — a filter the rewrite does not touch commutes with it (`filter_amend`), and one
     that refuses what it wrote loses that record alone (`filter_amend_out`).
-/
import Mathlib.Algebra.BigOperators.Group.List.Basic
import Mathlib.Data.List.Nodup

set_option linter.unusedVariables false
set_option linter.unusedSectionVars false

namespace Keyed

variable {κ α : Type*} [DecidableEq κ] (key : α → κ)

/-- Rewrites the record under `k`. -/
def amend (k : κ) (f : α → α) (l : List α) : List α :=
  l.map fun a => if key a = k then f a else a

variable {key} {k : κ} {f : α → α} {l l' : List α}

theorem amend_append : amend key k f (l ++ l') = amend key k f l ++ amend key k f l' :=
  List.map_append

theorem amend_of_notMem (h : k ∉ l.map key) : amend key k f l = l := by
  rw [amend, List.map_congr_left (g := id), List.map_id]
  intro a ha
  have hne : key a ≠ k := fun heq => h (heq ▸ List.mem_map.mpr ⟨a, ha, rfl⟩)
  exact if_neg hne

/-- A key among others of its own stands in neither half of the list around it. -/
theorem notMem_of_nodup {a : α} (h : ((l ++ a :: l').map key).Nodup) :
    key a ∉ l.map key ∧ key a ∉ l'.map key := by
  rw [List.map_append, List.map_cons, List.nodup_append] at h
  obtain ⟨-, hright, happart⟩ := h
  exact ⟨fun hmem => happart _ hmem _ List.mem_cons_self rfl, (List.nodup_cons.mp hright).1⟩

/-- Among distinct keys, amending changes one record in place. -/
theorem amend_split {a : α} (h : ((l ++ a :: l').map key).Nodup) :
    amend key (key a) f (l ++ a :: l') = l ++ f a :: l' := by
  obtain ⟨hleft, hright⟩ := notMem_of_nodup h
  have hhere : amend key (key a) f (a :: l') = f a :: amend key (key a) f l' :=
    congrArg (· :: _) (if_pos rfl)
  rw [amend_append, amend_of_notMem hleft, hhere, amend_of_notMem hright]

theorem map_key_amend (hf : ∀ a, key (f a) = key a) : (amend key k f l).map key = l.map key := by
  rw [amend, List.map_map]
  refine List.map_congr_left fun a _ => ?_
  show key (if key a = k then f a else a) = key a
  split
  · exact hf a
  · rfl

theorem mem_amend {b : α} (h : b ∈ amend key k f l) : ∃ a ∈ l, b = if key a = k then f a else a := by
  obtain ⟨a, ha, rfl⟩ := List.mem_map.mp h
  exact ⟨a, ha, rfl⟩

/-- A sum over the records changes by the new value less the old. -/
theorem sum_amend {M : Type*} [AddCommMonoid M] (w : α → M) {a : α} (hkeys : (l.map key).Nodup)
    (ha : a ∈ l) :
    ((amend key (key a) f l).map w).sum + w a = (l.map w).sum + w (f a) := by
  obtain ⟨left, right, rfl⟩ := List.append_of_mem ha
  rw [amend_split hkeys, List.map_append, List.map_append, List.sum_append, List.sum_append,
    List.map_cons, List.map_cons, List.sum_cons, List.sum_cons]
  ac_rfl

theorem map_amend {β : Type*} (w : α → β) (hw : ∀ a, w (f a) = w a) :
    (amend key k f l).map w = l.map w := by
  rw [amend, List.map_map]
  refine List.map_congr_left fun a _ => ?_
  show w (if key a = k then f a else a) = w a
  split
  · exact hw a
  · rfl

theorem filter_amend {p : α → Bool} (hp : ∀ a, p (f a) = p a) :
    (amend key k f l).filter p = amend key k f (l.filter p) := by
  have hsame : (p ∘ fun a => if key a = k then f a else a) = p := funext fun a => by
    show p (if key a = k then f a else a) = p a
    split
    · exact hp a
    · rfl
  rw [amend, List.filter_map, hsame, amend]

/-- A filter that refuses what amending wrote loses that record alone. -/
theorem filter_amend_out {p : α → Bool} (hp : ∀ a, p (f a) = false) :
    (amend key k f l).filter p = (l.filter p).filter fun a => key a ≠ k := by
  induction l with
  | nil => rfl
  | cons a rest ih =>
    have hcons : amend key k f (a :: rest) =
        (if key a = k then f a else a) :: amend key k f rest := rfl
    rw [hcons, List.filter_cons, ih]
    by_cases hkey : key a = k
    · cases hpa : p a <;> simp [hkey, hp, hpa]
    · cases hpa : p a <;> simp [hkey, hpa]

end Keyed
