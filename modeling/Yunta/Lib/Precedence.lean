/-
  Work that waits on other work: what an acyclic waiting relation gives, and a greedy choice of
  items that do not meet.

  1. **Waiting** — a relation with no cycle is well founded on any list, so what holds of an item
     once it holds of all it waits on holds of every item (`induction_of_acyclic`).  A relation that
     lowers a rank has no cycle.

  2. **Leaving items out** — `Skip` is waiting over items none of which is kept, and between kept
     items it is all there is of waiting (`transGen_skip_iff`).

  3. **Order** — `Ordered`: what is not done waits for all that is not done through items still open.
     Then an item all of whose own dependencies are done waits for nothing (`Ordered.all_done`), and
     items leave the open ones in that order alone (`Ordered.step`).

  4. **Greedy choice** — `fill` takes items in order, up to a bound, passing over those that meet
     one already taken.  It keeps the order, respects the bound, takes no two that meet, and takes
     at least one.
-/
import Mathlib.Data.List.Sublists
import Mathlib.Logic.Relation
import Mathlib.Order.WellFoundedSet

set_option linter.unusedVariables false

namespace Precedence

open Relation (ReflTransGen TransGen)

variable {α : Type*}

/-! ## Waiting -/

/-- No item waits on itself, directly or through others. -/
def Acyclic (waits : α → α → Prop) : Prop := ∀ a, ¬ TransGen waits a a

/-- **Induction over what an item waits on**, in a list of items. -/
theorem induction_of_acyclic {waits : α → α → Prop} (hacyclic : Acyclic waits) {items : List α}
    {P : α → Prop} (step : ∀ a ∈ items, (∀ b ∈ items, waits a b → P b) → P a) :
    ∀ a ∈ items, P a := by
  -- waiting, directly or through others, is a strict order
  let behind : α → α → Prop := fun b a => TransGen waits a b
  have horder : IsStrictOrder α behind :=
    { irrefl := hacyclic, trans := fun a b c hab hbc => TransGen.trans hbc hab }
  have hwf : {a | a ∈ items}.WellFoundedOn behind := items.finite_toSet.wellFoundedOn
  intro a ha
  refine hwf.induction (P := fun a => P a) ha ?_
  intro a ha ih
  exact step a ha fun b hb hwaits => ih b hb (TransGen.single hwaits)

/-- A relation that lowers a rank has no cycle. -/
theorem acyclic_of_rank {waits : α → α → Prop} (rank : α → Nat)
    (h : ∀ a b, waits a b → rank b < rank a) : Acyclic waits := by
  have hlower : ∀ a b, TransGen waits a b → rank b < rank a := by
    intro a b hwaits
    induction hwaits with
    | single hab => exact h _ _ hab
    | tail _ hbc ih => exact (h _ _ hbc).trans ih
  intro a hcycle
  exact Nat.lt_irrefl _ (hlower a a hcycle)

/-- An item waits on another one. -/
def Apart (waits : α → α → Prop) (a b : α) : Prop := waits a b ∧ a ≠ b

theorem Acyclic.apart {waits : α → α → Prop} (h : Acyclic waits) : Acyclic (Apart waits) :=
  fun a hcycle => h a (TransGen.mono (fun _ _ hab => hab.1) _ _ hcycle)

/-- Between two items, an item that waits on itself is passed by. -/
theorem transGen_apart {waits : α → α → Prop} {a b : α} (h : TransGen waits a b) (hne : a ≠ b) :
    TransGen (Apart waits) a b := by
  induction h with
  | single hab => exact .single ⟨hab, hne⟩
  | @tail b c _ hbc ih =>
    by_cases hab : a = b
    · subst hab
      exact .single ⟨hbc, hne⟩
    · by_cases hsame : b = c
      · subst hsame
        exact ih hab
      · exact .tail (ih hab) ⟨hbc, hsame⟩

/-- Where no two items wait on each other, a cycle is an item that waits on itself. -/
theorem loop_of_apart {waits : α → α → Prop} (hacyclic : Acyclic (Apart waits)) {a : α}
    (h : TransGen waits a a) : ∃ b, waits b b := by
  by_contra hnone
  refine hacyclic a (TransGen.mono (fun b c hbc => ⟨hbc, ?_⟩) _ _ h)
  rintro rfl
  exact hnone ⟨b, hbc⟩

/-! ## Leaving items out -/

/-- `a` waits for the kept `b`, over items none of which is kept. -/
inductive Skip (waits : α → α → Prop) (kept : α → Prop) : α → α → Prop
  | direct {a b : α} : waits a b → kept b → Skip waits kept a b
  | past {a m b : α} : waits a m → ¬ kept m → Skip waits kept m b → Skip waits kept a b

section Skip

variable {waits : α → α → Prop} {kept : α → Prop} {a b : α}

theorem Skip.isKept (h : Skip waits kept a b) : kept b := by
  induction h with
  | direct _ hb => exact hb
  | past _ _ _ ih => exact ih

theorem Skip.transGen (h : Skip waits kept a b) : TransGen waits a b := by
  induction h with
  | direct hab _ => exact .single hab
  | past ham _ _ ih => exact .head ham ih

/-- **Leaving items out keeps the order of those left**: a kept item is waited for in the whole
    relation exactly when it is over the skips. -/
theorem transGen_skip_iff (hb : kept b) :
    TransGen (Skip waits kept) a b ↔ TransGen waits a b := by
  constructor
  · intro h
    clear hb
    induction h with
    | single hab => exact hab.transGen
    | tail _ hbc ih => exact ih.trans hbc.transGen
  · intro h
    induction h using TransGen.head_induction_on with
    | single hab => exact .single (.direct hab hb)
    | @head a m ham _ ih =>
      by_cases hm : kept m
      · exact .head (.direct ham hm) ih
      · -- the first skip from an item left out is a skip from the one before it
        rcases TransGen.head'_iff.mp ih with ⟨c, hmc, hcb⟩
        exact TransGen.head' (.past ham hm hmc) hcb

/-- The skips are the paths over items left out. -/
theorem skip_iff_path : Skip waits kept a b ↔ kept b ∧ ∃ path, (∀ m ∈ path, ¬ kept m) ∧
    (a :: path ++ [b]).IsChain waits := by
  constructor
  · intro h
    induction h with
    | direct hab hb => exact ⟨hb, [], by simp, by simpa using hab⟩
    | @past a m b ham hm _ ih =>
      obtain ⟨hb, path, hpath, hchain⟩ := ih
      refine ⟨hb, m :: path, ?_, ?_⟩
      · exact List.forall_mem_cons.mpr ⟨hm, hpath⟩
      · rw [List.cons_append, List.cons_append, List.isChain_cons_cons]
        exact ⟨ham, hchain⟩
  · rintro ⟨hb, path, hpath, hchain⟩
    induction path generalizing a with
    | nil => exact .direct (by simpa using hchain) hb
    | cons m path ih =>
      rw [List.cons_append, List.cons_append, List.isChain_cons_cons] at hchain
      exact .past hchain.1 (hpath m List.mem_cons_self)
        (ih (fun x hx => hpath x (List.mem_cons_of_mem _ hx)) hchain.2)

end Skip

/-! ## Order -/

section Order

variable {waits : α → α → Prop} {done done' still still' : α → Prop}

/-- `a` waits for `b`, with nothing but items still open on the way. -/
def Through (waits : α → α → Prop) (still : α → Prop) (a b : α) : Prop :=
  ∃ m, ReflTransGen (fun x y => waits x y ∧ still y) a m ∧ waits m b

/-- Whatever is not done waits for all it waits for that is not done through items still open. -/
def Ordered (waits : α → α → Prop) (done still : α → Prop) : Prop :=
  ∀ a b, ¬ done a → ¬ done b → TransGen waits a b → Through waits still a b

/-- **Nothing is left to wait for** once an item's own dependencies are done. -/
theorem Ordered.all_done (h : Ordered waits done still) (hstill : ∀ x, still x → ¬ done x) {a : α}
    (hopen : ¬ done a) (hdeps : ∀ dep, waits a dep → done dep) {b : α} (hb : TransGen waits a b) :
    done b := by
  by_contra hnot
  obtain ⟨m, hchain, hlast⟩ := h a b hopen hnot hb
  rcases ReflTransGen.cases_head hchain with rfl | ⟨x, ⟨hax, hx⟩, -⟩
  · exact hnot (hdeps b hlast)
  · exact hstill x hx (hdeps x hax)

/-- A chain keeps to the items still open after those with nothing left to wait for are taken. -/
theorem Through.taken (hstill : ∀ x, still x → ¬ done x)
    (htaken : ∀ x, still x → still' x ∨ ∀ dep, waits x dep → done dep) {a b : α} (hb : ¬ done b)
    (h : Through waits still a b) : Through waits still' a b := by
  obtain ⟨m, hchain, hlast⟩ := h
  induction hchain using ReflTransGen.head_induction_on with
  | refl => exact ⟨_, .refl, hlast⟩
  | @head a x hstep hrest ih =>
    obtain ⟨hax, hx⟩ := hstep
    obtain ⟨m', hchain', hlast'⟩ := ih
    rcases htaken x hx with hx' | hdeps
    · exact ⟨m', .head ⟨hax, hx'⟩ hchain', hlast'⟩
    · -- an item with nothing left to wait for is on no chain to an item not done
      rcases ReflTransGen.cases_head hrest with rfl | ⟨y, ⟨hxy, hy⟩, -⟩
      · exact absurd (hdeps b hlast) hb
      · exact absurd (hdeps y hxy) (hstill y hy)

/-- **One step**: more items are done, and an item leaves the open ones only with its own
    dependencies done. -/
theorem Ordered.step (h : Ordered waits done still) (hstill : ∀ x, still x → ¬ done x)
    (hdone : ∀ x, done x → done' x)
    (htaken : ∀ x, still x → still' x ∨ ∀ dep, waits x dep → done dep) :
    Ordered waits done' still' := by
  intro a b ha hb hab
  have hb' : ¬ done b := fun hdoneb => hb (hdone b hdoneb)
  have ha' : ¬ done a := fun hdonea => ha (hdone a hdonea)
  exact (h a b ha' hb' hab).taken hstill htaken hb'

/-- Where every item some item waits for is still open, the order holds. -/
theorem ordered_of_still (h : ∀ a b, waits a b → still b) : Ordered waits done still := by
  intro a b _ _ hab
  obtain ⟨m, hchain, hlast⟩ := Relation.TransGen.tail'_iff.mp hab
  exact ⟨m, ReflTransGen.mono (fun x y hxy => ⟨hxy, h x y hxy⟩) _ _ hchain, hlast⟩

end Order

/-! ## Greedy choice -/

section Greedy

variable (meets : α → α → Bool) (bound : Nat)

/-- Takes items after `chosen`, until the bound; one that meets a chosen item is passed over. -/
def fill (chosen : List α) : List α → List α
  | [] => chosen
  | a :: rest =>
    if chosen.length ≥ bound then chosen
    else if chosen.any (meets · a) then fill chosen rest
    else fill (chosen ++ [a]) rest

/-- What is taken after `chosen` stands in the order it was offered. -/
theorem fill_sublist (chosen items : List α) :
    ∃ more, fill meets bound chosen items = chosen ++ more ∧ more.Sublist items := by
  induction items generalizing chosen with
  | nil => exact ⟨[], (List.append_nil _).symm, .slnil⟩
  | cons a rest ih =>
    rw [fill]
    split
    · exact ⟨[], (List.append_nil _).symm, List.nil_sublist _⟩
    split
    · obtain ⟨more, hmore, hsub⟩ := ih chosen
      exact ⟨more, hmore, hsub.cons a⟩
    · obtain ⟨more, hmore, hsub⟩ := ih (chosen ++ [a])
      refine ⟨a :: more, ?_, hsub.cons_cons a⟩
      rw [hmore, List.append_assoc]
      rfl

theorem fill_length {chosen items : List α} (h : chosen.length ≤ bound) :
    (fill meets bound chosen items).length ≤ bound := by
  induction items generalizing chosen with
  | nil => exact h
  | cons a rest ih =>
    rw [fill]
    split
    · exact h
    next hlt =>
    split
    · exact ih h
    · refine ih ?_
      rw [List.length_append, List.length_singleton]
      omega

/-- **No two taken items meet.** -/
theorem fill_pairwise {chosen items : List α}
    (h : chosen.Pairwise fun a b => meets a b = false) :
    (fill meets bound chosen items).Pairwise fun a b => meets a b = false := by
  induction items generalizing chosen with
  | nil => exact h
  | cons a rest ih =>
    rw [fill]
    split
    · exact h
    split
    · exact ih h
    next hmeets =>
    refine ih (List.pairwise_append.mpr ⟨h, List.pairwise_singleton _ a, ?_⟩)
    intro b hb c hc
    rw [List.mem_singleton.mp hc]
    by_contra hne
    exact hmeets (List.any_eq_true.mpr ⟨b, hb, by simpa using hne⟩)

/-- **One item is always taken**: the first meets nothing. -/
theorem fill_ne_nil (hbound : 0 < bound) {items : List α} (h : items ≠ []) :
    fill meets bound [] items ≠ [] := by
  cases items with
  | nil => exact absurd rfl h
  | cons a rest =>
    rw [fill, if_neg (show ¬ [].length ≥ bound by simpa [Nat.pos_iff_ne_zero] using hbound),
      if_neg (by simp)]
    obtain ⟨more, hmore, -⟩ := fill_sublist meets bound ([] ++ [a]) rest
    rw [hmore]
    exact List.cons_ne_nil a more

end Greedy

end Precedence
