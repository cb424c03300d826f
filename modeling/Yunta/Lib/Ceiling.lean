/-
  Ceilings folded layer by layer, the highest first.

  1. **Allow lists** — an empty list allows anything and a non-empty one only its members.
     `bounds` folds a list of them, each bounding the next.  `bounds_tight_iff`: the fold stays
     inside every non-empty list exactly when those lists share a member.

  2. **Strictest value** — `strictest` keeps the value of highest rank, and
     `strictest_isStrictest` says that one more layer leaves it so.

  3. **Union** — `union` adds what is not there yet, and `mem_union` says what it holds.
-/
import Mathlib.Data.List.Induction

set_option linter.unusedVariables false

namespace Ceiling

variable {α : Type}

/-! ## Allow lists -/

section AllowLists

variable [DecidableEq α]

/-- The allow list of a lower layer under the ceiling's. -/
def bound (ceiling lower : List α) : List α :=
  if ceiling.isEmpty then lower
  else if lower.isEmpty then ceiling
  else lower.filter (fun x => ceiling.contains x)

def bounds (lists : List (List α)) : List α := lists.foldl bound []

@[simp] theorem bound_nil_left (lower : List α) : bound [] lower = lower := rfl

@[simp] theorem bound_nil_right (ceiling : List α) : bound ceiling [] = ceiling := by
  cases ceiling <;> rfl

theorem mem_bound {ceiling lower : List α} (hc : ceiling ≠ []) (hl : lower ≠ []) (x : α) :
    x ∈ bound ceiling lower ↔ x ∈ ceiling ∧ x ∈ lower := by
  simp [bound, hc, hl, and_comm]

theorem bounds_append (lists : List (List α)) (list : List α) :
    bounds (lists ++ [list]) = bound (bounds lists) list := by
  simp [bounds, List.foldl_append]

/-- The non-empty lists have a member in common (any member does where every list is empty). -/
def Meet (lists : List (List α)) : Prop :=
  (∀ list ∈ lists, list = []) ∨ ∃ x, ∀ list ∈ lists, list ≠ [] → x ∈ list

/-- A list that bounds: one that is not empty, and holds nothing that `list` does not. -/
def Tight (inside list : List α) : Prop := inside ≠ [] ∧ ∀ x ∈ inside, x ∈ list

theorem bounds_of_empty {lists : List (List α)} (h : ∀ list ∈ lists, list = []) :
    bounds lists = [] := by
  induction lists using List.reverseRecOn with
  | nil => rfl
  | append_singleton lists list ih =>
    have hlist : list = [] := h list (by simp)
    rw [bounds_append, hlist, bound_nil_right]
    exact ih fun other hother => h other (by simp [hother])

/-- The invariant of the fold: a member every non-empty list shares is kept, and nothing comes in
    that some list left out. -/
theorem bounds_shared {lists : List (List α)} {x : α}
    (hx : ∀ list ∈ lists, list ≠ [] → x ∈ list) :
    ((∀ list ∈ lists, list = []) ∨ x ∈ bounds lists) ∧
    ∀ list ∈ lists, list ≠ [] → ∀ y ∈ bounds lists, y ∈ list := by
  induction lists using List.reverseRecOn with
  | nil => exact ⟨.inl (by simp), by simp⟩
  | append_singleton lists last ih =>
    obtain ⟨hkept, hinside⟩ := ih fun list hlist => hx list (by simp [hlist])
    rw [bounds_append]
    rcases hkept with hempty | hmem
    · -- nothing above bounds yet: the last list stands as written
      rw [bounds_of_empty hempty, bound_nil_left]
      refine ⟨?_, ?_⟩
      · rcases Classical.em (last = []) with hlast | hlast
        · left
          intro list hlist
          rcases List.mem_append.mp hlist with h | h
          · exact hempty list h
          · exact (List.mem_singleton.mp h).trans hlast
        · exact .inr (hx last (by simp) hlast)
      · intro list hlist hne y hy
        rcases List.mem_append.mp hlist with h | h
        · exact absurd (hempty list h) hne
        · rwa [List.mem_singleton.mp h]
    · have hbounds : bounds lists ≠ [] := List.ne_nil_of_mem hmem
      rcases Classical.em (last = []) with hlast | hlast
      · subst hlast
        refine ⟨.inr (by simpa using hmem), ?_⟩
        intro list hlist hne y hy
        have hlists : list ∈ lists := by simpa [hne] using hlist
        exact hinside list hlists hne y (by simpa using hy)
      · refine ⟨.inr ((mem_bound hbounds hlast x).mpr ⟨hmem, hx last (by simp) hlast⟩), ?_⟩
        intro list hlist hne y hy
        obtain ⟨habove, hy'⟩ := (mem_bound hbounds hlast y).mp hy
        rcases List.mem_append.mp hlist with h | h
        · exact hinside list h hne y habove
        · rwa [List.mem_singleton.mp h]

/-- **What the fold keeps.**  It stays inside every non-empty list exactly when they share a
    member: without one the fold runs empty, and an empty list bounds nothing. -/
theorem bounds_tight_iff (lists : List (List α)) :
    (∀ list ∈ lists, list ≠ [] → Tight (bounds lists) list) ↔ Meet lists := by
  constructor
  · intro h
    rcases Classical.em (∀ list ∈ lists, list = []) with hempty | hsome
    · exact .inl hempty
    · right
      obtain ⟨list, hlist, hne⟩ : ∃ list ∈ lists, list ≠ [] := by
        simpa using hsome
      obtain ⟨x, hx⟩ := List.exists_mem_of_ne_nil _ (h list hlist hne).1
      exact ⟨x, fun other hother hne' => (h other hother hne').2 x hx⟩
  · rintro (hempty | ⟨x, hx⟩) list hlist hne
    · exact absurd (hempty list hlist) hne
    · obtain ⟨hkept, hinside⟩ := bounds_shared hx
      refine ⟨?_, hinside list hlist hne⟩
      rcases hkept with hempty | hmem
      · exact absurd (hempty list hlist) hne
      · exact List.ne_nil_of_mem hmem

end AllowLists

/-! ## The strictest value -/

section Strictest

variable (rank : α → Nat)

/-- The stricter of two values; the first where they are level. -/
def stricter (a b : α) : α := if rank b ≤ rank a then a else b

/-- Of values that some layers leave open, the strictest one named; none where all are open. -/
def IsStrictest (values : List (Option α)) : Option α → Prop
  | none => ∀ value ∈ values, value = none
  | some top => some top ∈ values ∧ ∀ other, some other ∈ values → rank other ≤ rank top

/-- The stricter of what two layers name; a value only one names stands. -/
def strictest : Option α → Option α → Option α
  | some a, some b => some (stricter rank a b)
  | a, b => a.or b

theorem strictest_isStrictest {values : List (Option α)} {top : Option α}
    (h : IsStrictest rank values top) (next : Option α) :
    IsStrictest rank (values ++ [next]) (strictest rank top next) := by
  cases top with
  | none =>
    have hopen : ∀ value ∈ values, value = none := h
    cases next with
    | none =>
      intro value hvalue
      rcases List.mem_append.mp hvalue with h | h
      · exact hopen value h
      · exact List.mem_singleton.mp h
    | some b =>
      refine ⟨by simp, fun other hother => ?_⟩
      rcases List.mem_append.mp hother with h | h
      · exact absurd (hopen _ h) (by simp)
      · simp only [List.mem_singleton, Option.some.injEq] at h
        exact Nat.le_of_eq (by rw [h])
  | some a =>
    obtain ⟨hmem, hge⟩ := h
    cases next with
    | none =>
      refine ⟨by simp [hmem], fun other hother => hge other ?_⟩
      simpa using hother
    | some b =>
      show IsStrictest rank _ (some (if rank b ≤ rank a then a else b))
      split
      · rename_i hle
        refine ⟨by simp [hmem], fun other hother => ?_⟩
        rcases List.mem_append.mp hother with h | h
        · exact hge other h
        · simp only [List.mem_singleton, Option.some.injEq] at h
          rwa [h]
      · rename_i hlt
        refine ⟨by simp, fun other hother => ?_⟩
        rcases List.mem_append.mp hother with h | h
        · have := hge other h
          omega
        · simp only [List.mem_singleton, Option.some.injEq] at h
          exact Nat.le_of_eq (by rw [h])

end Strictest

/-! ## Union -/

section Union

variable [DecidableEq α]

/-- What is already there, and each of `more` that is not there yet. -/
def union (there more : List α) : List α :=
  more.foldl (fun kept x => if kept.contains x then kept else kept ++ [x]) there

theorem mem_union {there more : List α} (x : α) :
    x ∈ union there more ↔ x ∈ there ∨ x ∈ more := by
  induction more generalizing there with
  | nil => simp [union]
  | cons y more ih =>
    rw [union, List.foldl_cons]
    show x ∈ union _ more ↔ _
    rw [ih]
    by_cases hy : y ∈ there
    · have hkept : (if there.contains y then there else there ++ [y]) = there := by simp [hy]
      rw [hkept]
      by_cases hxy : x = y
      · simp [hxy, hy]
      · simp [hxy]
    · have hkept : (if there.contains y then there else there ++ [y]) = there ++ [y] := by
        simp [hy]
      rw [hkept]
      simp [or_assoc]

end Union

end Ceiling
