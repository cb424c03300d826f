/-
  Items laid out in layers: each in the layer just past the furthest of those it waits on.

  1. **Depth** — `depth waits fuel x` counts the layers below `x`.  Where nothing waits on itself,
     a fuel past the number of items settles it (`depth_settled`), and the settled depth is one past
     the furthest of what the item waits on (`depth_eq`).

  2. **The layout** — `layersBy at_ items` puts each item in the layer `at_` names.

  3. **Main result** — `layering_layersBy`: where `at_` is everywhere one past the furthest, the layout
     is a `Layering`: complete, with no empty layer, ordered and tight.
-/
import Yunta.Lib.Precedence
import Mathlib.Data.List.Range

set_option linter.unusedVariables false

namespace Layers

open Relation (TransGen)

variable {α : Type*}

/-! ## One past the furthest -/

/-- One past the greatest, and the first where there is none. -/
def past (below : List Nat) : Nat := below.max?.elim 0 (· + 1)

@[simp] theorem past_nil : past [] = 0 := rfl

theorem lt_past {below : List Nat} {k : Nat} (h : k ∈ below) : k < past below := by
  obtain ⟨top, htop⟩ : ∃ top, below.max? = some top := by
    cases hmax : below.max? with
    | none => rw [List.max?_eq_none_iff.mp hmax] at h; cases h
    | some top => exact ⟨top, rfl⟩
  have hle : k ≤ top := (List.max?_eq_some_iff.mp htop).2 k h
  show k < below.max?.elim 0 (· + 1)
  rw [htop]
  show k < top + 1
  omega

theorem past_cases (below : List Nat) :
    (below = [] ∧ past below = 0) ∨ ∃ top ∈ below, past below = top + 1 := by
  cases hmax : below.max? with
  | none =>
    have hnil := List.max?_eq_none_iff.mp hmax
    exact .inl ⟨hnil, by rw [hnil]; rfl⟩
  | some top =>
    refine .inr ⟨top, (List.max?_eq_some_iff.mp hmax).1, ?_⟩
    show below.max?.elim 0 (· + 1) = top + 1
    rw [hmax]
    rfl

theorem past_le {below : List Nat} {n : Nat} : past below ≤ n ↔ ∀ k ∈ below, k < n := by
  constructor
  · intro h k hk
    have hlt := lt_past hk
    omega
  · intro h
    rcases past_cases below with ⟨-, hzero⟩ | ⟨top, htop, heq⟩
    · omega
    · have hlt := h top htop
      omega

/-- Lists that hold the same numbers are passed by the same one. -/
theorem past_congr {below other : List Nat} (h : ∀ k, k ∈ below ↔ k ∈ other) :
    past below = past other := by
  have hle : ∀ {a b : List Nat}, (∀ k ∈ a, k ∈ b) → past a ≤ past b :=
    fun hsub => past_le.mpr fun k hk => lt_past (hsub k hk)
  exact Nat.le_antisymm (hle fun k hk => (h k).mp hk) (hle fun k hk => (h k).mpr hk)

/-- One more number: what is past it and past the rest. -/
theorem past_cons (k : Nat) (below : List Nat) : past (k :: below) = max (k + 1) (past below) := by
  refine Nat.le_antisymm (past_le.mpr ?_) (Nat.max_le.mpr ⟨lt_past List.mem_cons_self, ?_⟩)
  · intro j hj
    rcases List.mem_cons.mp hj with rfl | hj
    · omega
    · have hlt := lt_past hj
      omega
  · exact past_le.mpr fun j hj => lt_past (List.mem_cons_of_mem k hj)

/-! ## Depth -/

/-- How many layers lie below an item, looked for `fuel` items deep. -/
def depth (waits : α → List α) : Nat → α → Nat
  | 0, _ => 0
  | fuel + 1, x => past ((waits x).map (depth waits fuel))

section Depth
variable {waits : α → List α} {items : List α}

open Classical in
/-- How many of the items an item waits for, directly or through others. -/
noncomputable def behind (waits : α → List α) (items : List α) (x : α) : Nat :=
  (items.filter fun y => TransGen (fun a b => b ∈ waits a) x y).length

theorem behind_le (x : α) : behind waits items x ≤ items.length := List.length_filter_le _ _

/-- **What an item waits on has fewer items behind it**: it is one of them itself. -/
theorem behind_lt (hacyclic : Precedence.Acyclic fun a b => b ∈ waits a)
    (hitems : ∀ x, ∀ y ∈ waits x, y ∈ items) {x y : α} (hy : y ∈ waits x) :
    behind waits items y < behind waits items x := by
  classical
  have hsub : (items.filter fun z => TransGen (fun a b => b ∈ waits a) y z) =
      (items.filter fun z => TransGen (fun a b => b ∈ waits a) x z).filter fun z =>
        TransGen (fun a b => b ∈ waits a) y z := by
    rw [List.filter_filter]
    refine List.filter_congr fun z _ => ?_
    rw [eq_comm, Bool.and_eq_left_iff_imp]
    intro hz
    exact decide_eq_true (TransGen.head hy (of_decide_eq_true hz))
  have hmem : y ∈ items.filter fun z => TransGen (fun a b => b ∈ waits a) x z :=
    List.mem_filter.mpr ⟨hitems x y hy, decide_eq_true (TransGen.single hy)⟩
  rw [behind, behind, hsub]
  exact List.length_filter_lt_length_iff_exists.mpr
    ⟨y, hmem, fun h => hacyclic y (of_decide_eq_true h)⟩

theorem behind_lt_length (hacyclic : Precedence.Acyclic fun a b => b ∈ waits a) {x : α}
    (hx : x ∈ items) : behind waits items x < items.length := by
  classical
  refine List.length_filter_lt_length_iff_exists.mpr ⟨x, hx, fun h => hacyclic x ?_⟩
  exact of_decide_eq_true h

/-- **Depth settles** once the fuel is past the items behind. -/
theorem depth_settled (hacyclic : Precedence.Acyclic fun a b => b ∈ waits a)
    (hitems : ∀ x, ∀ y ∈ waits x, y ∈ items) {fuel other : Nat} {x : α}
    (hfuel : behind waits items x < fuel) (hother : behind waits items x < other) :
    depth waits fuel x = depth waits other x := by
  induction fuel generalizing other x with
  | zero => omega
  | succ fuel ih =>
    cases other with
    | zero => omega
    | succ other =>
      show past _ = past _
      congr 1
      refine List.map_congr_left fun y hy => ?_
      have hlt := behind_lt hacyclic hitems hy
      exact ih (by omega) (by omega)

/-- **The settled depth** is one past the furthest of what the item waits on. -/
theorem depth_eq (hacyclic : Precedence.Acyclic fun a b => b ∈ waits a)
    (hitems : ∀ x, ∀ y ∈ waits x, y ∈ items) (x : α) :
    depth waits (items.length + 1) x =
      past ((waits x).map (depth waits (items.length + 1))) := by
  show past _ = past _
  congr 1
  refine List.map_congr_left fun y hy => ?_
  have hlt := behind_lt hacyclic hitems hy
  have hle : behind waits items x ≤ items.length := behind_le x
  exact depth_settled hacyclic hitems (by omega) (by omega)

end Depth

/-! ## The layout -/

/-- The items in their layers, `at_` naming each one's. -/
def layersBy (at_ : α → Nat) (items : List α) : List (List α) :=
  (List.range (past (items.map at_))).map fun k => items.filter fun x => at_ x = k

/-- What layers have to be: every item in one of them once, none empty, and each item in the layer
    just past the furthest of the items it waits on. -/
structure Layering (waits : α → α → Prop) (items : List α) (layers : List (List α)) : Prop where
  once : layers.flatten.Perm items
  nonempty : ∀ layer ∈ layers, layer ≠ []
  later : ∀ {k : Nat} {layer : List α} {x : α}, layers[k]? = some layer → x ∈ layer →
    ∀ y ∈ items, waits x y → ∃ j < k, ∃ earlier, layers[j]? = some earlier ∧ y ∈ earlier
  next : ∀ {k : Nat} {layer : List α} {x : α}, layers[k + 1]? = some layer → x ∈ layer →
    ∃ before, layers[k]? = some before ∧ ∃ y ∈ before, waits x y

theorem layering_nil {waits : α → α → Prop} : Layering waits [] [] where
  once := .refl _
  nonempty := nofun
  later := fun h => absurd h (by simp)
  next := fun h => absurd h (by simp)

section Layout
variable {at_ : α → Nat} {items : List α}

theorem layersBy_getElem? {k : Nat} {layer : List α} :
    (layersBy at_ items)[k]? = some layer ↔
      k < past (items.map at_) ∧ layer = items.filter fun x => at_ x = k := by
  rw [layersBy, List.getElem?_map]
  by_cases hk : k < past (items.map at_)
  · rw [List.getElem?_range hk]
    simp [hk, eq_comm]
  · rw [List.getElem?_eq_none (by rw [List.length_range]; omega)]
    simp [hk]

variable (at_) in
/-- An item stands in the layer its depth names. -/
theorem layersBy_holds {x : α} (hx : x ∈ items) :
    ∃ layer, (layersBy at_ items)[at_ x]? = some layer ∧ x ∈ layer := by
  refine ⟨_, layersBy_getElem?.mpr ⟨lt_past (List.mem_map_of_mem hx), rfl⟩, ?_⟩
  exact List.mem_filter.mpr ⟨hx, decide_eq_true rfl⟩

variable (at_ items) in
/-- Items put one by one in layers that are there already. -/
theorem foldl_put (n : Nat) :
    items.foldl (fun layers x => layers.modify (at_ x) (· ++ [x])) (List.replicate n []) =
      (List.range n).map fun k => items.filter fun x => at_ x = k := by
  induction items using List.reverseRecOn with
  | nil =>
    refine List.ext_getElem? fun k => ?_
    by_cases hk : k < n
    · simp [hk]
    · simp [hk]
  | append_singleton items x ih =>
    rw [List.foldl_append, List.foldl_cons, List.foldl_nil, ih]
    refine List.ext_getElem? fun k => ?_
    rw [List.getElem?_modify, List.getElem?_map, List.getElem?_map]
    by_cases hk : k < n
    · rw [List.getElem?_range hk]
      by_cases hx : at_ x = k
      · simp [hx]
      · simp [hx]
    · rw [List.getElem?_eq_none (by rw [List.length_range]; omega)]
      simp

variable (at_ items) in
/-- The first layers hold the items that lie in them. -/
theorem layersBy_perm (n : Nat) :
    ((List.range n).flatMap fun k => items.filter fun x => at_ x = k).Perm
      (items.filter fun x => at_ x < n) := by
  induction n with
  | zero => simp
  | succ n ih =>
    rw [List.range_succ, List.flatMap_append, List.flatMap_singleton]
    have hlow : (items.filter fun x => at_ x < n) =
        (items.filter fun x => at_ x < n + 1).filter fun x => at_ x < n := by
      rw [List.filter_filter]
      refine List.filter_congr fun x _ => ?_
      rw [← Bool.decide_and]
      exact decide_eq_decide.mpr (by omega)
    have htop : (items.filter fun x => at_ x = n) =
        (items.filter fun x => at_ x < n + 1).filter fun x => !decide (at_ x < n) := by
      rw [List.filter_filter]
      refine List.filter_congr fun x _ => ?_
      rw [← decide_not, ← Bool.decide_and]
      exact decide_eq_decide.mpr (by omega)
    refine (ih.append_right _).trans ?_
    rw [hlow, htop]
    exact List.filter_append_perm _ _

/-- **One more item** is put in its own layer, past as many empty ones as that takes. -/
theorem layersBy_snoc (x : α) :
    layersBy at_ (items ++ [x]) =
      (layersBy at_ items ++
        List.replicate (at_ x + 1 - (layersBy at_ items).length) []).modify (at_ x) (· ++ [x]) := by
  have hlength : (layersBy at_ items).length = past (items.map at_) := by simp [layersBy]
  have hmore : past ((items ++ [x]).map at_) = max (at_ x + 1) (past (items.map at_)) := by
    rw [← past_cons]
    exact past_congr fun k => by simp [or_comm]
  have hread : ∀ (its : List α) (k : Nat), (layersBy at_ its)[k]? =
      if k < past (its.map at_) then some (its.filter fun y => at_ y = k) else none := by
    intro its k
    split
    · next hk => exact layersBy_getElem?.mpr ⟨hk, rfl⟩
    · next hk => exact List.getElem?_eq_none (by simp [layersBy]; omega)
  have hempty : ∀ k, past (items.map at_) ≤ k → (items.filter fun y => at_ y = k) = [] := by
    intro k hk
    refine List.filter_eq_nil_iff.mpr fun y hy => ?_
    have hlt : at_ y < past (items.map at_) := lt_past (List.mem_map_of_mem hy)
    simp only [decide_eq_true_eq]
    omega
  refine List.ext_getElem? fun k => ?_
  rw [hread, hmore, List.getElem?_modify, List.getElem?_append, hlength, hread, List.filter_append]
  by_cases hk : k < past (items.map at_)
  · have hkm : k < max (at_ x + 1) (past (items.map at_)) := by omega
    rw [if_pos hkm, if_pos hk, if_pos hk]
    by_cases hx : at_ x = k
    · simp [hx]
    · simp [hx]
  · rw [if_neg hk, List.getElem?_replicate, hempty k (by omega)]
    by_cases hx : at_ x = k
    · have hkm : k < max (at_ x + 1) (past (items.map at_)) := by omega
      rw [if_pos hkm, if_pos (by omega)]
      simp [hx]
    · by_cases hkm : k < at_ x
      · rw [if_pos (by omega), if_pos (by omega)]
        simp [hx]
      · rw [if_neg (by omega), if_neg (by omega)]
        simp

/-- **The layout is a layering** where each item's layer is just past the furthest of the items it
    waits on. -/
theorem layering_layersBy {waits : α → α → Prop} [∀ x y, Decidable (waits x y)]
    (hat : ∀ x ∈ items, at_ x = past ((items.filter fun y => waits x y).map at_)) :
    Layering waits items (layersBy at_ items) := by
  have hbefore : ∀ x ∈ items, ∀ k, at_ x = k + 1 → ∃ y ∈ items, waits x y ∧ at_ y = k := by
    intro x hx k hk
    rcases past_cases ((items.filter fun y => waits x y).map at_) with ⟨-, hzero⟩ | ⟨top, htop, heq⟩
    · rw [hat x hx] at hk
      omega
    · obtain ⟨y, hy, rfl⟩ := List.mem_map.mp htop
      rw [hat x hx] at hk
      obtain ⟨hmem, hwaits⟩ := List.mem_filter.mp hy
      exact ⟨y, hmem, of_decide_eq_true hwaits, by omega⟩
  have hdown : ∀ n, ∀ x ∈ items, ∀ k, at_ x = k + n → ∃ y ∈ items, at_ y = k := by
    intro n
    induction n with
    | zero => exact fun x hx k hk => ⟨x, hx, hk⟩
    | succ n ih =>
      intro x hx k hk
      obtain ⟨y, hy, -, heq⟩ := hbefore x hx (k + n) (by omega)
      exact ih y hy k heq
  refine ⟨?_, ?_, ?_, ?_⟩
  · -- every item lies in a layer below the last
    have hall : (items.filter fun x => at_ x < past (items.map at_)) = items :=
      List.filter_eq_self.mpr fun x hx => decide_eq_true (lt_past (List.mem_map_of_mem hx))
    have hperm := layersBy_perm at_ items (past (items.map at_))
    rw [hall] at hperm
    rwa [layersBy, ← List.flatMap_def]
  · intro layer hlayer
    obtain ⟨k, hk⟩ := List.mem_iff_getElem?.mp hlayer
    obtain ⟨hlt, rfl⟩ := layersBy_getElem?.mp hk
    rcases past_cases (items.map at_) with ⟨-, hzero⟩ | ⟨top, htop, heq⟩
    · omega
    · obtain ⟨x, hx, rfl⟩ := List.mem_map.mp htop
      obtain ⟨y, hy, hyk⟩ := hdown (at_ x - k) x hx k (by omega)
      exact List.ne_nil_of_mem (List.mem_filter.mpr ⟨hy, decide_eq_true hyk⟩)
  · intro k layer x hk hx y hy hwaits
    obtain ⟨-, rfl⟩ := layersBy_getElem?.mp hk
    obtain ⟨hmem, heq⟩ := List.mem_filter.mp hx
    have hlt : at_ y < at_ x := by
      rw [hat x hmem]
      exact lt_past (List.mem_map_of_mem (List.mem_filter.mpr ⟨hy, decide_eq_true hwaits⟩))
    have hxk : at_ x = k := of_decide_eq_true heq
    exact ⟨at_ y, by omega, layersBy_holds at_ hy⟩
  · intro k layer x hk hx
    obtain ⟨-, rfl⟩ := layersBy_getElem?.mp hk
    obtain ⟨hmem, heq⟩ := List.mem_filter.mp hx
    obtain ⟨y, hy, hwaits, rfl⟩ := hbefore x hmem k (of_decide_eq_true heq)
    obtain ⟨before, hbefore, hin⟩ := layersBy_holds at_ hy
    exact ⟨before, hbefore, y, hin, hwaits⟩

end Layout

end Layers
