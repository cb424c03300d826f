/-
  Lists grown by what they lack, until nothing is left to add.

  1. **All at once** — `addAll` pushes what a list does not hold yet.  It leaves the length as it
     is exactly when the list held all of it already (`addAll_length`), and otherwise what a finite
     whole holds beside the list gets smaller (`missing_lt`): a list grown inside one is saturated
     after as many rounds.

  2. **One at a time** — `letIn` takes the first item a rule lets in, and starts over.  Where the
     rule asks that all an item needs is held, what it lets in is the least set closed under it
     (`mem_letIn`), in whatever order the items stand.

  3. **In passes** — `untilStill` walks over every item, each adding what it asks for, until a pass
     adds nothing: then no item asks for more (`untilStill_closed`).
-/
import Mathlib.Data.List.Basic

set_option linter.unusedVariables false

namespace Saturate

variable {α : Type*} [DecidableEq α]

/-- Pushes `x` unless the list holds it. -/
def add (held : List α) (x : α) : List α := if held.contains x then held else held ++ [x]

def addAll (held new : List α) : List α := new.foldl add held

@[simp] theorem mem_add {held : List α} {x y : α} : y ∈ add held x ↔ y ∈ held ∨ y = x := by
  unfold add
  split
  · next h =>
    constructor
    · exact .inl
    · rintro (hy | rfl)
      · exact hy
      · simpa using h
  · simp

@[simp] theorem mem_addAll {held new : List α} {y : α} :
    y ∈ addAll held new ↔ y ∈ held ∨ y ∈ new := by
  induction new generalizing held with
  | nil => simp [addAll]
  | cons x new ih =>
    show y ∈ addAll (add held x) new ↔ _
    rw [ih, mem_add, List.mem_cons, or_assoc]

theorem length_le_add (held : List α) (x : α) : held.length ≤ (add held x).length := by
  unfold add
  split
  · exact Nat.le_refl _
  · rw [List.length_append]
    omega

theorem length_le_addAll (held new : List α) : held.length ≤ (addAll held new).length := by
  induction new generalizing held with
  | nil => exact Nat.le_refl _
  | cons x new ih => exact Nat.le_trans (length_le_add held x) (ih (add held x))

/-- **Nothing is added exactly when all of it was held.** -/
theorem addAll_length {held new : List α} :
    (addAll held new).length = held.length ↔ ∀ x ∈ new, x ∈ held := by
  induction new generalizing held with
  | nil => simp [addAll]
  | cons x new ih =>
    show (addAll (add held x) new).length = _ ↔ _
    by_cases hx : x ∈ held
    · have hadd : add held x = held := if_pos (by simpa using hx)
      rw [hadd, ih]
      simp [hx]
    · have hadd : add held x = held ++ [x] := if_neg (by simpa using hx)
      have hle := length_le_addAll (held ++ [x]) new
      rw [List.length_append, List.length_singleton] at hle
      constructor
      · intro h
        rw [hadd] at h
        omega
      · intro h
        exact absurd (h x List.mem_cons_self) hx

/-- What a whole holds beside a list. -/
def missing (whole held : List α) : Nat := (whole.filter fun x => x ∉ held).length

/-- **Something added leaves less to add.** -/
theorem missing_lt (whole : List α) {held new : List α} (hnew : ∀ x ∈ new, x ∈ whole)
    (h : (addAll held new).length ≠ held.length) :
    missing whole (addAll held new) < missing whole held := by
  rw [Ne, addAll_length] at h
  push Not at h
  obtain ⟨x, hx, hlacks⟩ := h
  have hsub : (whole.filter fun y => y ∉ addAll held new) =
      (whole.filter fun y => y ∉ held).filter fun y => y ∉ new := by
    rw [List.filter_filter]
    refine List.filter_congr fun y _ => ?_
    simp only [mem_addAll, not_or, Bool.decide_and]
    exact Bool.and_comm _ _
  rw [missing, missing, hsub]
  refine List.length_filter_lt_length_iff_exists.mpr ⟨x, ?_, by simpa using hx⟩
  exact List.mem_filter.mpr ⟨hnew x hx, by simpa using hlacks⟩

/-! ## One at a time -/

section LetIn
variable {β γ : Type*} (items : List β) (key : β → α) (rule : List α → β → Option γ)

/-- What `rule` lets in after `held`, the first item it can each time, with what let it in. -/
def letIn : Nat → List α → List (α × γ)
  | 0, _ => []
  | fuel + 1, held =>
    match (items.filter fun x => key x ∉ held).findSome? fun x => (rule held x).map (key x, ·) with
    | none => []
    | some (k, via) => (k, via) :: letIn fuel (held ++ [k])

/-- What follows from `start`: what it holds, and the key of each item all of whose needs do. -/
inductive Follows (needs : β → Option (List α)) (start : List α) : α → Prop
  | start {a : α} : a ∈ start → Follows needs start a
  | item {x : β} {deps : List α} : x ∈ items → needs x = some deps →
      (∀ d ∈ deps, Follows needs start d) → Follows needs start (key x)

/-- `rule` lets an item in exactly when all it needs is held. -/
def Asks (needs : β → Option (List α)) : Prop :=
  ∀ held x, (rule held x).isSome = true ↔ ∃ deps, needs x = some deps ∧ ∀ d ∈ deps, d ∈ held

variable {items key rule} {needs : β → Option (List α)}

omit [DecidableEq α] in
theorem Follows.trans {first second : List α} (h : ∀ b ∈ second, Follows items key needs first b)
    {a : α} (ha : Follows items key needs second a) : Follows items key needs first a := by
  induction ha with
  | start hmem => exact h _ hmem
  | item hx hneeds _ ih => exact .item hx hneeds ih

/-- The item a rule lets in next: none holds it yet, and all it needs is held. -/
theorem next_follows (hrule : Asks rule needs) {held : List α} {k : α} {via : γ}
    (h : (items.filter fun x => key x ∉ held).findSome? (fun x => (rule held x).map (key x, ·)) =
      some (k, via)) :
    k ∈ items.map key ∧ k ∉ held ∧ Follows items key needs held k := by
  obtain ⟨x, hx, hmap⟩ := List.exists_of_findSome?_eq_some h
  obtain ⟨via', hvia, hpair⟩ := Option.map_eq_some_iff.mp hmap
  obtain ⟨rfl, rfl⟩ := Prod.mk.inj hpair
  have hmem := (List.mem_filter.mp hx).1
  have hnew : key x ∉ held := by simpa using (List.mem_filter.mp hx).2
  obtain ⟨deps, hneeds, hall⟩ := (hrule held x).mp (by rw [hvia]; rfl)
  have hfollows : Follows items key needs held (key x) :=
    .item hmem hneeds fun d hd => .start (hall d hd)
  exact ⟨List.mem_map_of_mem hmem, hnew, hfollows⟩

/-- Where a rule lets nothing in, what is held is closed. -/
theorem held_of_stopped (hrule : Asks rule needs) {held : List α}
    (h : (items.filter fun x => key x ∉ held).findSome? (fun x => (rule held x).map (key x, ·)) =
      none) {a : α} (ha : Follows items key needs held a) : a ∈ held := by
  induction ha with
  | start hmem => exact hmem
  | @item x deps hx hneeds _ ih =>
    by_contra hnew
    have hopen : (rule held x).isSome = true := (hrule held x).mpr ⟨deps, hneeds, ih⟩
    have hnone := List.findSome?_eq_none_iff.mp h x (List.mem_filter.mpr ⟨hx, by simpa using hnew⟩)
    rw [Option.map_eq_none_iff.mp hnone] at hopen
    exact Bool.false_ne_true hopen

/-- **With fuel for every key, what is let in is what follows.** -/
theorem mem_letIn (hrule : Asks rule needs) {fuel : Nat} {held : List α}
    (hfuel : missing (items.map key) held ≤ fuel) {a : α} :
    (a ∈ held ∨ a ∈ (letIn items key rule fuel held).map Prod.fst) ↔
      Follows items key needs held a := by
  induction fuel generalizing held with
  | zero =>
    have hall : ∀ k ∈ items.map key, k ∈ held := by
      intro k hk
      by_contra hnew
      have hmem : k ∈ (items.map key).filter fun x => x ∉ held :=
        List.mem_filter.mpr ⟨hk, by simpa using hnew⟩
      have hpos := List.length_pos_of_mem hmem
      unfold missing at hfuel
      omega
    constructor
    · rintro (hmem | hmem)
      · exact .start hmem
      · exact absurd hmem List.not_mem_nil
    · intro h
      cases h with
      | start hmem => exact .inl hmem
      | item hx _ _ => exact .inl (hall _ (List.mem_map_of_mem hx))
  | succ fuel ih =>
    rw [letIn]
    split
    · next h =>
      constructor
      · rintro (hmem | hmem)
        · exact .start hmem
        · exact absurd hmem List.not_mem_nil
      · exact fun hfollows => .inl (held_of_stopped hrule h hfollows)
    · next k via h =>
      obtain ⟨hkey, hnew, hk⟩ := next_follows hrule h
      have hadd : addAll held [k] = held ++ [k] := if_neg (by simpa using hnew)
      have hless : missing (items.map key) (held ++ [k]) < missing (items.map key) held := by
        rw [← hadd]
        refine missing_lt _ (by simpa using hkey) ?_
        rw [hadd, List.length_append, List.length_singleton]
        omega
      have hrest := @ih (held ++ [k]) (by omega)
      have hboth : (a ∈ held ∨ a ∈ ((k, via) :: letIn items key rule fuel (held ++ [k])).map
          Prod.fst) ↔ Follows items key needs (held ++ [k]) a := by
        rw [← hrest]
        simp [or_assoc]
      rw [hboth]
      constructor
      · refine Follows.trans fun b hb => ?_
        rcases List.mem_append.mp hb with hb | hb
        · exact .start hb
        · obtain rfl := List.mem_singleton.mp hb
          exact hk
      · exact Follows.trans fun b hb => .start (List.mem_append_left _ hb)

end LetIn

/-! ## In passes -/

section Passes
variable {β : Type*} (asks : List α → β → List α) (items : List β)

/-- One pass: each item adds what it asks for, given what is held by then. -/
def pass (held : List α) : List α := items.foldl (fun held x => addAll held (asks held x)) held

/-- Passes until one adds nothing. -/
def untilStill : Nat → List α → List α
  | 0, held => held
  | fuel + 1, held =>
    let more := pass asks items held
    if more.length = held.length then more else untilStill fuel more

variable {asks items}

/-- What a list holds already adds nothing to it. -/
theorem addAll_held {held new : List α} (h : ∀ x ∈ new, x ∈ held) : addAll held new = held := by
  induction new with
  | nil => rfl
  | cons x new ih =>
    have hx : add held x = held := if_pos (by simpa using h x List.mem_cons_self)
    show addAll (add held x) new = held
    rw [hx]
    exact ih fun y hy => h y (List.mem_cons_of_mem x hy)

variable (asks items) in
/-- A pass is one addition of all that its items ask for on the way. -/
theorem pass_eq_addAll (held : List α) :
    ∃ new, pass asks items held = addAll held new ∧
      ∀ a ∈ new, ∃ x ∈ items, ∃ before, a ∈ asks before x := by
  induction items generalizing held with
  | nil => exact ⟨[], rfl, nofun⟩
  | cons x items ih =>
    obtain ⟨new, hpass, hnew⟩ := ih (addAll held (asks held x))
    refine ⟨asks held x ++ new, ?_, ?_⟩
    · show pass asks items (addAll held (asks held x)) = (asks held x ++ new).foldl add held
      rw [hpass, List.foldl_append]
      rfl
    · intro a ha
      rcases List.mem_append.mp ha with ha | ha
      · exact ⟨x, List.mem_cons_self, held, ha⟩
      · obtain ⟨y, hy, before, hasks⟩ := hnew a ha
        exact ⟨y, List.mem_cons_of_mem x hy, before, hasks⟩

variable (asks items) in
theorem length_le_pass (held : List α) : held.length ≤ (pass asks items held).length := by
  obtain ⟨new, hpass, -⟩ := pass_eq_addAll asks items held
  rw [hpass]
  exact length_le_addAll held new

/-- **A pass that adds nothing** finds every item's asking held. -/
theorem pass_still {held : List α} (h : (pass asks items held).length = held.length) :
    pass asks items held = held ∧ ∀ x ∈ items, ∀ a ∈ asks held x, a ∈ held := by
  induction items with
  | nil => exact ⟨rfl, nofun⟩
  | cons x items ih =>
    have hfirst : held.length ≤ (addAll held (asks held x)).length := length_le_addAll held _
    have hrest : (addAll held (asks held x)).length ≤ (pass asks (x :: items) held).length :=
      length_le_pass asks items (addAll held (asks held x))
    have hasked : ∀ a ∈ asks held x, a ∈ held := addAll_length.mp (by omega)
    have hpass : pass asks (x :: items) held = pass asks items held := by
      show pass asks items (addAll held (asks held x)) = _
      rw [addAll_held hasked]
    rw [hpass] at h ⊢
    obtain ⟨hsame, hall⟩ := ih h
    refine ⟨hsame, fun y hy => ?_⟩
    rcases List.mem_cons.mp hy with rfl | hy
    · exact hasked
    · exact hall y hy

variable (asks) in
/-- **The passes end closed**: inside a finite whole, as many passes as it holds items are enough. -/
theorem untilStill_closed (whole : List α)
    (hwhole : ∀ held, ∀ x ∈ items, ∀ a ∈ asks held x, a ∈ whole) {fuel : Nat} {held : List α}
    (hfuel : missing whole held < fuel) :
    ∀ x ∈ items, ∀ a ∈ asks (untilStill asks items fuel held) x,
      a ∈ untilStill asks items fuel held := by
  induction fuel generalizing held with
  | zero => omega
  | succ fuel ih =>
    rw [untilStill]
    by_cases hstill : (pass asks items held).length = held.length
    · rw [if_pos hstill, (pass_still hstill).1]
      exact (pass_still hstill).2
    · rw [if_neg hstill]
      obtain ⟨new, hpass, hnew⟩ := pass_eq_addAll asks items held
      have hless : missing whole (pass asks items held) < missing whole held := by
        rw [hpass] at hstill ⊢
        refine missing_lt whole (fun a ha => ?_) hstill
        obtain ⟨x, hx, before, hasks⟩ := hnew a ha
        exact hwhole before x hx a hasks
      exact ih (by omega)

theorem subset_untilStill {fuel : Nat} {held : List α} {a : α} (h : a ∈ held) :
    a ∈ untilStill asks items fuel held := by
  induction fuel generalizing held with
  | zero => exact h
  | succ fuel ih =>
    have hpass : a ∈ pass asks items held := by
      obtain ⟨new, hpass, -⟩ := pass_eq_addAll asks items held
      rw [hpass]
      exact mem_addAll.mpr (.inl h)
    rw [untilStill]
    split
    · exact hpass
    · exact ih hpass

/-- **What the passes hold** has whatever is passed on from what is held to what is asked for. -/
theorem untilStill_holds {P : α → Prop}
    (hasks : ∀ held, (∀ b ∈ held, P b) → ∀ x ∈ items, ∀ a ∈ asks held x, P a) {fuel : Nat}
    {held : List α} (h : ∀ b ∈ held, P b) : ∀ a ∈ untilStill asks items fuel held, P a := by
  have hpass : ∀ held : List α, (∀ b ∈ held, P b) → ∀ b ∈ pass asks items held, P b := by
    refine fun held hheld => List.foldlRecOn (motive := fun now => ∀ b ∈ now, P b) items _ hheld ?_
    intro now hnow x hx b hb
    rcases mem_addAll.mp hb with hb | hb
    · exact hnow b hb
    · exact hasks now hnow x hx b hb
  induction fuel generalizing held with
  | zero => exact h
  | succ fuel ih =>
    rw [untilStill]
    split
    · exact hpass held h
    · exact ih (hpass held h)

theorem missing_le (whole held : List α) : missing whole held ≤ whole.length :=
  List.length_filter_le _ _

end Passes

end Saturate
