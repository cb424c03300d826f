/-
  A depth-first visit of what is reached from a stack.

  `visit` takes the top of the stack; an item not seen yet is kept, and what comes next from it is
  pushed.

  1. **Sound** — `visit_sound`: what is kept was kept before, or is reached from the stack.

  2. **Whole** — `visit_covers`: with fuel for every push a whole of items makes, what is kept holds
     the stack and all that is reached from it.

  3. **Marking** — `mark` marks an item as it is pushed, so that none is pushed twice; the stack it
     starts from is marked only where something leads back to it.  It marks exactly what some step
     from the stack leads to (`mem_mark`).
-/
import Mathlib.Algebra.GroupWithZero.Nat
import Mathlib.Data.List.Basic
import Mathlib.Logic.Relation

set_option linter.unusedVariables false

namespace Visit

open Relation (ReflTransGen)

variable {α : Type*} [DecidableEq α] (next : α → List α)

/-- Keeps what the stack reaches, after `seen`; what comes next is pushed in order, so the last of
    it is taken first. -/
def visit : Nat → List α → List α → List α
  | 0, _, seen => seen
  | _ + 1, [], seen => seen
  | fuel + 1, x :: stack, seen =>
    if x ∈ seen then visit fuel stack seen
    else visit fuel ((next x).reverse ++ stack) (seen ++ [x])

/-- One item comes next after another. -/
def Next (x y : α) : Prop := y ∈ next x

theorem visit_sound {fuel : Nat} {stack seen : List α} {y : α} (h : y ∈ visit next fuel stack seen) :
    y ∈ seen ∨ ∃ x ∈ stack, ReflTransGen (Next next) x y := by
  induction fuel, stack, seen using visit.induct next with
  | case1 stack seen => exact .inl h
  | case2 fuel seen => exact .inl h
  | case3 fuel x stack seen hmem ih =>
    rw [visit, if_pos hmem] at h
    rcases ih h with hseen | ⟨x', hx', hreach⟩
    · exact .inl hseen
    · exact .inr ⟨x', List.mem_cons_of_mem x hx', hreach⟩
  | case4 fuel x stack seen hmem ih =>
    rw [visit, if_neg hmem] at h
    rcases ih h with hseen | ⟨x', hx', hreach⟩
    · rcases List.mem_append.mp hseen with hseen | hx
      · exact .inl hseen
      · obtain rfl := List.mem_singleton.mp hx
        exact .inr ⟨y, List.mem_cons_self, .refl⟩
    · rcases List.mem_append.mp hx' with hnext | hstack
      · have hstep : Next next x x' := List.mem_reverse.mp hnext
        exact .inr ⟨x, List.mem_cons_self, .head hstep hreach⟩
      · exact .inr ⟨x', List.mem_cons_of_mem x hstack, hreach⟩

/-- The pushes a whole of items still makes beside what was seen. -/
def pushes (whole seen : List α) : Nat :=
  ((whole.filter (· ∉ seen)).map fun x => (next x).length).sum

/-- An item of the whole taken leaves its own pushes out of what is to come. -/
theorem pushes_taken {whole seen : List α} {x : α} (hseen : x ∉ seen)
    (hwhole : next x ≠ [] → x ∈ whole) :
    pushes next whole (seen ++ [x]) + (next x).length ≤ pushes next whole seen := by
  have hle : ∀ rest : List α, pushes next rest (seen ++ [x]) ≤ pushes next rest seen := by
    intro rest
    induction rest with
    | nil => exact Nat.le_refl _
    | cons a rest ih =>
      unfold pushes at ih ⊢
      by_cases ha : a ∈ seen
      · have hboth : a ∈ seen ++ [x] := List.mem_append_left _ ha
        simpa [ha, hboth] using ih
      · by_cases hax : a = x
        · subst hax
          simp [ha] at ih ⊢
          omega
        · simp [ha, hax] at ih ⊢
          omega
  by_cases hnext : next x = []
  · rw [hnext]
    exact hle whole
  · obtain ⟨before, after, rfl⟩ := List.append_of_mem (hwhole hnext)
    have hsplit : ∀ seen : List α, pushes next (before ++ x :: after) seen =
        pushes next before seen + pushes next [x] seen + pushes next after seen := by
      intro seen
      by_cases hx : x ∈ seen
      · simp [pushes, hx]
      · simp [pushes, hx]
        omega
    have hbefore := hle before
    have hafter := hle after
    have hgone : pushes next [x] (seen ++ [x]) = 0 := by simp [pushes]
    have hstood : pushes next [x] seen = (next x).length := by simp [pushes, hseen]
    rw [hsplit, hsplit, hgone, hstood]
    omega

/-- What was seen has all that comes next from it seen too, or on the stack. -/
def Covered (stack seen : List α) : Prop :=
  ∀ x ∈ seen, ∀ y ∈ next x, y ∈ seen ∨ y ∈ stack

/-- **With fuel enough nothing is left out**: the visit keeps the stack, what was seen, and all that
    comes next from what it keeps. -/
theorem visit_covers (whole : List α) (hwhole : ∀ x, next x ≠ [] → x ∈ whole) {fuel : Nat}
    {stack seen : List α} (hfuel : stack.length + pushes next whole seen ≤ fuel)
    (hcovered : Covered next stack seen) :
    (∀ x, x ∈ seen ∨ x ∈ stack → x ∈ visit next fuel stack seen) ∧
      Covered next [] (visit next fuel stack seen) := by
  induction fuel, stack, seen using visit.induct next with
  | case1 stack seen =>
    have hempty : stack = [] := List.length_eq_zero_iff.mp (by omega)
    subst hempty
    rw [visit]
    exact ⟨fun x hx => hx.resolve_right List.not_mem_nil, hcovered⟩
  | case2 fuel seen =>
    rw [visit]
    exact ⟨fun x hx => hx.resolve_right List.not_mem_nil, hcovered⟩
  | case3 fuel x stack seen hmem ih =>
    rw [visit, if_pos hmem]
    rw [List.length_cons] at hfuel
    have hrest : Covered next stack seen := by
      intro a ha y hy
      rcases hcovered a ha y hy with hseen | hstack
      · exact .inl hseen
      · rcases List.mem_cons.mp hstack with rfl | hstack
        · exact .inl hmem
        · exact .inr hstack
    obtain ⟨hkept, hclosed⟩ := ih (by omega) hrest
    refine ⟨fun a ha => hkept a ?_, hclosed⟩
    rcases ha with hseen | hstack
    · exact .inl hseen
    · rcases List.mem_cons.mp hstack with rfl | hstack
      · exact .inl hmem
      · exact .inr hstack
  | case4 fuel x stack seen hmem ih =>
    rw [visit, if_neg hmem]
    rw [List.length_cons] at hfuel
    have htaken := pushes_taken next hmem (hwhole x)
    have hrest : Covered next ((next x).reverse ++ stack) (seen ++ [x]) := by
      intro a ha y hy
      rcases List.mem_append.mp ha with ha | ha
      · rcases hcovered a ha y hy with hseen | hstack
        · exact .inl (List.mem_append_left _ hseen)
        · rcases List.mem_cons.mp hstack with rfl | hstack
          · exact .inl (List.mem_append_right _ (List.mem_singleton.mpr rfl))
          · exact .inr (List.mem_append_right _ hstack)
      · obtain rfl := List.mem_singleton.mp ha
        exact .inr (List.mem_append_left _ (List.mem_reverse.mpr hy))
    obtain ⟨hkept, hclosed⟩ := ih
      (by rw [List.length_append, List.length_reverse]; omega) hrest
    refine ⟨fun a ha => hkept a ?_, hclosed⟩
    rcases ha with hseen | hstack
    · exact .inl (List.mem_append_left _ hseen)
    · rcases List.mem_cons.mp hstack with rfl | hstack
      · exact .inl (List.mem_append_right _ (List.mem_singleton.mpr rfl))
      · exact .inr (List.mem_append_right _ hstack)

/-- **A visit from a fresh stack keeps exactly what the stack reaches.** -/
theorem mem_visit (whole : List α) (hwhole : ∀ x, next x ≠ [] → x ∈ whole) {fuel : Nat}
    {stack : List α} (hfuel : stack.length + pushes next whole [] ≤ fuel) {y : α} :
    y ∈ visit next fuel stack [] ↔ ∃ x ∈ stack, ReflTransGen (Next next) x y := by
  constructor
  · intro h
    rcases visit_sound next h with hseen | hreached
    · exact absurd hseen List.not_mem_nil
    · exact hreached
  · rintro ⟨x, hx, hreach⟩
    obtain ⟨hkept, hclosed⟩ := visit_covers next whole hwhole hfuel
      (fun a ha => absurd ha List.not_mem_nil)
    induction hreach with
    | refl => exact hkept x (.inr hx)
    | tail _ hstep ih => exact (hclosed _ ih _ hstep).resolve_right List.not_mem_nil

/-! ## Marking -/

/-- Pushes an item and marks it, unless it was marked. -/
def push (pushed : List α × List α) (y : α) : List α × List α :=
  if y ∈ pushed.2 then pushed else (y :: pushed.1, pushed.2 ++ [y])

/-- Marks what the stack leads to. -/
def mark : Nat → List α → List α → List α
  | 0, _, marked => marked
  | _ + 1, [], marked => marked
  | fuel + 1, x :: stack, marked =>
    let pushed := (next x).foldl push (stack, marked)
    mark fuel pushed.1 pushed.2

/-- What a whole of items holds that is not marked. -/
def unmarked (whole marked : List α) : Nat := (whole.filter (· ∉ marked)).length

theorem unmarked_lt {whole marked : List α} {y : α} (hwhole : y ∈ whole) (hmarked : y ∉ marked) :
    unmarked whole (marked ++ [y]) < unmarked whole marked := by
  have hfilter : whole.filter (· ∉ marked ++ [y]) =
      (whole.filter (· ∉ marked)).filter (· ≠ y) := by
    rw [List.filter_filter]
    refine List.filter_congr fun a _ => ?_
    simp only [List.mem_append, List.mem_singleton, not_or, Bool.decide_and]
    exact Bool.and_comm _ _
  rw [unmarked, unmarked, hfilter]
  exact List.length_filter_lt_length_iff_exists.mpr
    ⟨y, List.mem_filter.mpr ⟨hwhole, by simpa using hmarked⟩, by simp⟩

/-- What a row of pushes leaves: everything pushed is marked and was led to, everything marked
    before still is, and what is pushed was not marked. -/
theorem foldl_push {whole items : List α} (hwhole : ∀ y ∈ items, y ∈ whole)
    (stack marked : List α) :
    (∀ y, y ∈ (items.foldl push (stack, marked)).2 ↔ y ∈ marked ∨ y ∈ items) ∧
    (∀ y, y ∈ (items.foldl push (stack, marked)).1 ↔ y ∈ stack ∨ y ∈ items ∧ y ∉ marked) ∧
    (items.foldl push (stack, marked)).1.length +
      unmarked whole (items.foldl push (stack, marked)).2 ≤ stack.length + unmarked whole marked := by
  induction items generalizing stack marked with
  | nil => exact ⟨fun y => by simp, fun y => by simp, Nat.le_refl _⟩
  | cons item items ih =>
    have hrest : ∀ y ∈ items, y ∈ whole := fun y hy => hwhole y (List.mem_cons_of_mem _ hy)
    rw [List.foldl_cons]
    by_cases hitem : item ∈ marked
    · have hpush : push (stack, marked) item = (stack, marked) := if_pos hitem
      rw [hpush]
      obtain ⟨hmarked, hstack, hle⟩ := ih hrest stack marked
      refine ⟨fun y => ?_, fun y => ?_, hle⟩
      · rw [hmarked, List.mem_cons]
        constructor
        · rintro (h | h)
          · exact .inl h
          · exact .inr (.inr h)
        · rintro (h | rfl | h)
          · exact .inl h
          · exact .inl hitem
          · exact .inr h
      · rw [hstack, List.mem_cons]
        constructor
        · rintro (h | ⟨h, hnot⟩)
          · exact .inl h
          · exact .inr ⟨.inr h, hnot⟩
        · rintro (h | ⟨rfl | h, hnot⟩)
          · exact .inl h
          · exact absurd hitem hnot
          · exact .inr ⟨h, hnot⟩
    · have hpush : push (stack, marked) item = (item :: stack, marked ++ [item]) := if_neg hitem
      rw [hpush]
      obtain ⟨hmarked, hstack, hle⟩ := ih hrest (item :: stack) (marked ++ [item])
      refine ⟨fun y => ?_, fun y => ?_, ?_⟩
      · rw [hmarked, List.mem_append, List.mem_singleton, List.mem_cons, or_assoc]
      · rw [hstack, List.mem_cons, List.mem_cons, List.mem_append, List.mem_singleton]
        constructor
        · rintro ((rfl | h) | ⟨h, hnot⟩)
          · exact .inr ⟨.inl rfl, hitem⟩
          · exact .inl h
          · exact .inr ⟨.inr h, fun hmem => hnot (.inl hmem)⟩
        · rintro (h | ⟨rfl | h, hnot⟩)
          · exact .inl (.inr h)
          · exact .inl (.inl rfl)
          · by_cases heq : y = item
            · exact .inl (.inl heq)
            · exact .inr ⟨h, fun hmem => hmem.elim hnot heq⟩
      · have hlt := unmarked_lt (hwhole item List.mem_cons_self) hitem
        rw [List.length_cons] at hle
        omega

/-- **With fuel enough marking leaves nothing out**: what leads on from what was marked is marked or
    was on the stack, and stays so. -/
theorem mark_spec {whole : List α} (hwhole : ∀ x y, y ∈ next x → y ∈ whole) {source : α}
    {fuel : Nat} {stack marked : List α} (hfuel : stack.length + unmarked whole marked ≤ fuel)
    (hsound : ∀ x, x ∈ marked → Relation.TransGen (Next next) source x)
    (hstack : ∀ x ∈ stack, x = source ∨ x ∈ marked)
    (hcovered : ∀ x, x = source ∨ x ∈ marked → x ∈ stack ∨ ∀ y ∈ next x, y ∈ marked) :
    (∀ x, x ∈ mark next fuel stack marked → Relation.TransGen (Next next) source x) ∧
      ∀ x, x = source ∨ x ∈ mark next fuel stack marked →
        ∀ y ∈ next x, y ∈ mark next fuel stack marked := by
  induction fuel, stack, marked using mark.induct next with
  | case1 stack marked =>
    have hempty : stack = [] := List.length_eq_zero_iff.mp (by omega)
    subst hempty
    rw [mark]
    exact ⟨hsound, fun x hx => (hcovered x hx).resolve_left List.not_mem_nil⟩
  | case2 fuel marked =>
    rw [mark]
    exact ⟨hsound, fun x hx => (hcovered x hx).resolve_left List.not_mem_nil⟩
  | case3 fuel x stack marked pushed ih =>
    obtain ⟨hmarked, hpushed, hle⟩ := foldl_push (hwhole x) stack marked
    rw [List.length_cons] at hfuel
    rw [mark]
    -- what comes next from the top is reached from the source as the top is
    have htop : ∀ y ∈ next x, Relation.TransGen (Next next) source y := by
      intro y hy
      rcases hstack x List.mem_cons_self with rfl | hx
      · exact .single hy
      · exact (hsound x hx).tail hy
    refine ih (Nat.le_trans hle (by omega)) ?_ ?_ ?_
    · intro y hy
      exact ((hmarked y).mp hy).elim (hsound y) (htop y)
    · intro y hy
      rcases (hpushed y).mp hy with hy | ⟨hy, -⟩
      · exact (hstack y (List.mem_cons_of_mem x hy)).imp_right fun h => (hmarked y).mpr (.inl h)
      · exact .inr ((hmarked y).mpr (.inr hy))
    · intro a ha
      by_cases hax : a = x
      · subst hax
        exact .inr fun y hy => (hmarked y).mpr (.inr hy)
      by_cases hold : a = source ∨ a ∈ marked
      · rcases hcovered a hold with hon | hall
        · rcases List.mem_cons.mp hon with rfl | hon
          · exact absurd rfl hax
          · exact .inl ((hpushed a).mpr (.inl hon))
        · exact .inr fun y hy => (hmarked y).mpr (.inl (hall y hy))
      · rw [not_or] at hold
        have hnew : a ∈ next x := ((hmarked a).mp (ha.resolve_left hold.1)).resolve_left hold.2
        exact .inl ((hpushed a).mpr (.inr ⟨hnew, hold.2⟩))

/-- **Marking from one item marks exactly what some step from it leads to.** -/
theorem mem_mark {whole : List α} (hwhole : ∀ x y, y ∈ next x → y ∈ whole) {source : α} {fuel : Nat}
    (hfuel : whole.length < fuel) {y : α} :
    y ∈ mark next fuel [source] [] ↔ Relation.TransGen (Next next) source y := by
  have hunmarked : unmarked whole [] ≤ whole.length := List.length_filter_le _ _
  have hstart : [source].length + unmarked whole [] ≤ fuel := by
    rw [List.length_singleton]
    omega
  obtain ⟨hsound, hclosed⟩ := mark_spec next hwhole hstart
    (fun x hx => absurd hx List.not_mem_nil)
    (fun x hx => .inl (List.mem_singleton.mp hx))
    (fun x hx => .inl (List.mem_singleton.mpr (hx.resolve_right List.not_mem_nil)))
  constructor
  · exact hsound y
  · intro hreach
    induction hreach with
    | single hstep => exact hclosed source (.inl rfl) _ hstep
    | tail _ hstep ih => exact hclosed _ (.inr ih) _ hstep

end Visit
