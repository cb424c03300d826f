/-
  Ordered maps, the few operations a fold over a log makes on them, and how those compose.

  1. **The type** — `OrdMap κ ν` is an extensional tree map under `compare`: two maps are equal
     exactly when they answer every key the same, and a walk goes in key order.

  2. **Upsert** — `upsert m k d f` rewrites the value under `k`, starting from `d` when the map
     holds none: the one way a record of a ledger changes.

  3. **Growth** — `Grows r m m'` says every key of `m` is a key of `m'`, its value `r`-related to
     the one `m` held.  It is a preorder when `r` is, and `upsert` keeps it.

  4. **Sums** — `sumBy w` adds a weight up over the values; over any keys that cover the map it is
     the sum of what each weighs there (`sumBy_eq_sum`), so two maps are compared key by key.

  5. **Counts** — `countBy p` is how many values satisfy `p`; one write moves it by the value before
     and the value after (`countBy_insert`).
-/
import Std.Data.ExtTreeMap
import Std.Data.ExtTreeSet
import Mathlib.Algebra.BigOperators.Group.Finset.Basic
import Mathlib.Algebra.Order.Ring.Nat
import Mathlib.Data.List.Nodup

set_option linter.unusedVariables false
set_option linter.unusedSectionVars false

/-- A map whose walks go in key order. -/
abbrev OrdMap (κ : Type) (ν : Type) [Ord κ] := Std.ExtTreeMap κ ν compare

/-- A set whose walks go in order. -/
abbrev OrdSet (κ : Type) [Ord κ] := Std.ExtTreeSet κ compare

namespace OrdMap

open Std

/-! ## Pairs as keys, compared first by the first component -/

instance pairOrd {α β : Type} [Ord α] [Ord β] : Ord (α × β) := lexOrd

instance pairTransOrd {α β : Type} [Ord α] [Ord β] [TransOrd α] [TransOrd β] :
    TransOrd (α × β) :=
  inferInstanceAs (TransCmp (compareLex (compareOn (fun p : α × β => p.1))
    (compareOn (fun p : α × β => p.2))))

instance pairLawfulEqOrd {α β : Type} [Ord α] [Ord β] [LawfulEqOrd α] [LawfulEqOrd β] :
    LawfulEqOrd (α × β) where
  compare_self := by
    intro p
    change (compare p.1 p.1).then (compare p.2 p.2) = .eq
    simp
  eq_of_compare := by
    intro p q h
    change (compare p.1 q.1).then (compare p.2 q.2) = .eq at h
    rw [Ordering.then_eq_eq] at h
    exact Prod.ext (LawfulEqOrd.eq_of_compare h.1) (LawfulEqOrd.eq_of_compare h.2)

variable {κ ν : Type} [Ord κ] [TransOrd κ] [LawfulEqOrd κ] [DecidableEq κ]

/-! ## Upsert -/

/-- The value under `k`, or `d` when the map holds none, rewritten by `f`. -/
def upsert (m : OrdMap κ ν) (k : κ) (d : ν) (f : ν → ν) : OrdMap κ ν :=
  m.insert k (f (m[k]?.getD d))

theorem getElem?_insert_eq (m : OrdMap κ ν) (k a : κ) (v : ν) :
    (m.insert k v)[a]? = if k = a then some v else m[a]? := by
  rw [ExtTreeMap.getElem?_insert]
  by_cases h : k = a
  · subst h; simp
  · have hne : compare k a ≠ .eq := fun he => h (LawfulEqOrd.eq_of_compare he)
    simp [h, hne]

@[simp] theorem getElem?_upsert (m : OrdMap κ ν) (k a : κ) (d : ν) (f : ν → ν) :
    (upsert m k d f)[a]? = if k = a then some (f (m[k]?.getD d)) else m[a]? :=
  getElem?_insert_eq m k a _

theorem getElem?_upsert_self (m : OrdMap κ ν) (k : κ) (d : ν) (f : ν → ν) :
    (upsert m k d f)[k]? = some (f (m[k]?.getD d)) := by simp

/-- Writes each of some entries, the later over the earlier. -/
def insertAll (m : OrdMap κ ν) (entries : List (κ × ν)) : OrdMap κ ν :=
  entries.foldl (fun m entry => m.insert entry.1 entry.2) m

/-- The last entry under a key is what the map holds there. -/
theorem getElem?_insertAll (m : OrdMap κ ν) (entries : List (κ × ν)) (k : κ) :
    (insertAll m entries)[k]? = (entries.reverse.lookup k).or m[k]? := by
  induction entries generalizing m with
  | nil => rfl
  | cons entry entries ih =>
    show (insertAll (m.insert entry.1 entry.2) entries)[k]? = _
    rw [ih, List.reverse_cons, List.lookup_append, Option.or_assoc]
    congr 1
    rw [getElem?_insert_eq, List.lookup_cons, List.lookup_nil]
    by_cases hk : k = entry.1
    · subst hk
      simp
    · rw [if_neg fun h => hk h.symm, beq_false_of_ne hk]
      rfl

/-- Writing a value twice under a key is writing it once. -/
theorem insert_insert (m : OrdMap κ ν) (k : κ) (v w : ν) :
    (m.insert k v).insert k w = m.insert k w := by
  refine ExtTreeMap.ext_getElem? fun a => ?_
  simp only [getElem?_insert_eq]
  split <;> rfl

/-- Writing back the value a key already holds changes nothing. -/
theorem insert_self (m : OrdMap κ ν) {k : κ} {v : ν} (h : m[k]? = some v) :
    m.insert k v = m := by
  refine ExtTreeMap.ext_getElem? fun a => ?_
  rw [getElem?_insert_eq]
  split
  · next hk => rw [← hk, h]
  · rfl

theorem getElem?_erase_eq (m : OrdMap κ ν) (k a : κ) :
    (m.erase k)[a]? = if k = a then none else m[a]? := by
  rw [ExtTreeMap.getElem?_erase]
  by_cases h : k = a
  · subst h; simp
  · have hne : compare k a ≠ .eq := fun he => h (LawfulEqOrd.eq_of_compare he)
    simp [h, hne]

/-- Erasing an absent key changes nothing. -/
theorem erase_absent (m : OrdMap κ ν) {k : κ} (h : m[k]? = none) : m.erase k = m := by
  refine ExtTreeMap.ext_getElem? fun a => ?_
  rw [getElem?_erase_eq]
  split
  · next hk => rw [← hk, h]
  · rfl

/-! ## Lists of entries -/

/-- A list whose keys are distinct is read as the map that holds its entries and no others. -/
theorem getElem?_ofList_eq_some {entries : List (κ × ν)} (h : (entries.map (·.1)).Nodup) {k : κ}
    {v : ν} : (ExtTreeMap.ofList entries compare : OrdMap κ ν)[k]? = some v ↔ (k, v) ∈ entries := by
  have hdistinct : entries.Pairwise fun a b => ¬ compare a.1 b.1 = .eq :=
    (List.pairwise_map.mp h).imp fun hne => by rwa [LawfulEqOrd.compare_eq_iff_eq]
  constructor
  · intro hget
    by_cases hmem : k ∈ entries.map (·.1)
    · obtain ⟨⟨key, held⟩, hentry, rfl⟩ := List.mem_map.mp hmem
      have hheld : (ExtTreeMap.ofList entries compare : OrdMap κ ν)[key]? = some held :=
        ExtTreeMap.getElem?_ofList_of_mem (by simp) hdistinct hentry
      obtain rfl : held = v := Option.some.inj (hheld.symm.trans hget)
      exact hentry
    · rw [ExtTreeMap.getElem?_ofList_of_contains_eq_false (by simpa using hmem)] at hget
      cases hget
  · exact fun hentry => ExtTreeMap.getElem?_ofList_of_mem (by simp) hdistinct hentry

/-- What a list is read as holds only its entries, the later of two under one key. -/
theorem mem_of_getElem?_ofList {entries : List (κ × ν)} {k : κ} {v : ν}
    (h : (ExtTreeMap.ofList entries compare : OrdMap κ ν)[k]? = some v) : (k, v) ∈ entries := by
  rw [ExtTreeMap.ofList_eq_foldl] at h
  have hfold (m : OrdMap κ ν) (entries : List (κ × ν))
      (h : (entries.foldl (fun acc p => acc.insert p.1 p.2) m)[k]? = some v) :
      (k, v) ∈ entries ∨ m[k]? = some v := by
    induction entries generalizing m with
    | nil => exact .inr h
    | cons entry entries ih =>
      rcases ih _ h with hmem | hm
      · exact .inl (List.mem_cons_of_mem _ hmem)
      · rw [getElem?_insert_eq] at hm
        split at hm
        next hkey =>
          obtain ⟨key, held⟩ := entry
          cases hm
          subst hkey
          exact .inl List.mem_cons_self
        next => exact .inr hm
  exact (hfold ∅ entries h).resolve_right (by simp)

theorem nodup_keys (m : OrdMap κ ν) : (m.toList.map (·.1)).Nodup :=
  List.pairwise_map.mpr (ExtTreeMap.distinct_keys_toList.imp fun hne heq => hne (by simp [heq]))

theorem ofList_toList (m : OrdMap κ ν) : (ExtTreeMap.ofList m.toList compare : OrdMap κ ν) = m := by
  refine ExtTreeMap.ext_getElem? fun k => Option.ext fun v => ?_
  rw [getElem?_ofList_eq_some m.nodup_keys, ExtTreeMap.mem_toList_iff_getElem?_eq_some]

theorem getElem?_ofList_cons {entry : κ × ν} {entries : List (κ × ν)}
    (h : ((entry :: entries).map (·.1)).Nodup) (k : κ) :
    (ExtTreeMap.ofList (entry :: entries) compare : OrdMap κ ν)[k]? =
      if entry.1 = k then some entry.2
      else (ExtTreeMap.ofList entries compare : OrdMap κ ν)[k]? := by
  have hrest := List.nodup_cons.mp h
  refine Option.ext fun v => ?_
  rw [getElem?_ofList_eq_some h, List.mem_cons]
  split
  next hkey =>
    have hnot : (k, v) ∉ entries := fun hmem =>
      hrest.1 (List.mem_map.mpr ⟨_, hmem, hkey.symm⟩)
    simp only [hnot, or_false, Option.some.injEq]
    exact ⟨fun heq => by rw [← heq], fun heq => by rw [← heq, ← hkey]⟩
  next hkey =>
    rw [getElem?_ofList_eq_some hrest.2, or_iff_right fun heq => hkey (by rw [← heq])]

/-- Each entry of one map put into another that holds nothing under its key. -/
theorem getElem?_orInsert (m extra : OrdMap κ ν) (k : κ) :
    (extra.toList.foldl (fun m entry =>
      if m.contains entry.1 then m else m.insert entry.1 entry.2) m)[k]? = m[k]?.or extra[k]? := by
  have hfold (entries : List (κ × ν)) (hdistinct : (entries.map (·.1)).Nodup) (m : OrdMap κ ν) :
      (entries.foldl (fun m entry =>
        if m.contains entry.1 then m else m.insert entry.1 entry.2) m)[k]? =
        m[k]?.or (ExtTreeMap.ofList entries compare : OrdMap κ ν)[k]? := by
    induction entries generalizing m with
    | nil => simp
    | cons entry entries ih =>
      rw [List.foldl_cons, ih (List.nodup_cons.mp hdistinct).2, getElem?_ofList_cons hdistinct]
      cases hheld : m.contains entry.1 with
      | true =>
        obtain ⟨v, hv⟩ : ∃ v, m[entry.1]? = some v := by
          rw [ExtTreeMap.contains_eq_isSome_getElem?] at hheld
          exact Option.isSome_iff_exists.mp hheld
        by_cases hkey : entry.1 = k
        · rw [hkey] at hv
          simp [hkey, hv]
        · simp [hkey]
      | false =>
        have hv : m[entry.1]? = none := by
          rw [ExtTreeMap.contains_eq_isSome_getElem?] at hheld
          exact Option.isNone_iff_eq_none.mp (Option.isSome_eq_false_iff.mp hheld)
        rw [if_neg Bool.false_ne_true, getElem?_insert_eq]
        by_cases hkey : entry.1 = k
        · rw [hkey] at hv
          simp [hkey, hv]
        · simp [hkey]
  rw [hfold _ extra.nodup_keys, ofList_toList]

/-! ## Growth -/

/-- Every key of `m` is a key of `m'`, and its value there is `r`-above the one `m` held. -/
def Grows (r : ν → ν → Prop) (m m' : OrdMap κ ν) : Prop :=
  ∀ (k : κ) (v : ν), m[k]? = some v → ∃ v' : ν, m'[k]? = some v' ∧ r v v'

theorem Grows.refl {r : ν → ν → Prop} (hr : ∀ v, r v v) (m : OrdMap κ ν) : Grows r m m :=
  fun _ v h => ⟨v, h, hr v⟩

theorem Grows.trans {r : ν → ν → Prop} (hr : ∀ {u v w}, r u v → r v w → r u w)
    {m m' m'' : OrdMap κ ν} (h : Grows r m m') (h' : Grows r m' m'') : Grows r m m'' := by
  intro k v hv
  obtain ⟨v', hv', hle⟩ := h k v hv
  obtain ⟨v'', hv'', hle'⟩ := h' k v' hv'
  exact ⟨v'', hv'', hr hle hle'⟩

/-- Rewriting one value upward keeps every other key, so the map grows. -/
theorem Grows.upsert {r : ν → ν → Prop} (hr : ∀ v, r v v) (m : OrdMap κ ν) (k : κ) (d : ν)
    {f : ν → ν} (hf : ∀ v, r v (f v)) : Grows r m (upsert m k d f) := by
  intro a v hv
  by_cases h : k = a
  · subst h
    exact ⟨f v, by simp [hv], hf v⟩
  · exact ⟨v, by simp [h, hv], hr v⟩

/-! ## Sums over the values -/

/-- The sum of a weight over every value. -/
def sumBy {M : Type} [AddCommMonoid M] (w : ν → M) (m : OrdMap κ ν) : M :=
  (m.toList.map fun kv => w kv.2).sum

/-- The sum over any keys among which the map's own are, a key it does not hold weighing
    nothing. -/
theorem sumBy_eq_sum {M : Type} [AddCommMonoid M] (w : ν → M) (m : OrdMap κ ν) {keys : Finset κ}
    (h : ∀ k v, m[k]? = some v → k ∈ keys) :
    sumBy w m = ∑ k ∈ keys, (m[k]?.map w).getD 0 := by
  have hheld (entry : κ × ν) (hentry : entry ∈ m.toList) : m[entry.1]? = some entry.2 :=
    ExtTreeMap.mem_toList_iff_getElem?_eq_some.mp hentry
  have hown : sumBy w m = ∑ k ∈ (m.toList.map (·.1)).toFinset, (m[k]?.map w).getD 0 := by
    rw [List.sum_toFinset _ m.nodup_keys, List.map_map]
    refine congrArg List.sum (List.map_congr_left fun entry hentry => ?_)
    simp [hheld entry hentry]
  rw [hown]
  refine Finset.sum_subset ?_ ?_
  · intro k hk
    obtain ⟨entry, hentry, rfl⟩ := List.mem_map.mp (List.mem_toFinset.mp hk)
    exact h _ _ (hheld entry hentry)
  · intro k _ hk
    cases hv : m[k]? with
    | none => rfl
    | some v =>
      refine absurd (List.mem_toFinset.mpr (List.mem_map.mpr ⟨(k, v), ?_, rfl⟩)) hk
      exact ExtTreeMap.mem_toList_iff_getElem?_eq_some.mpr hv

/-! ## Counts of the values -/

/-- How many values satisfy `p`. -/
def countBy (p : ν → Bool) (m : OrdMap κ ν) : Nat := (m.toList.map (·.2)).countP p

/-- The entries of a map, one of them written. -/
theorem toList_insert_perm (m : OrdMap κ ν) (k : κ) (v : ν) :
    (m.insert k v).toList.Perm ((k, v) :: m.toList.filter (·.1 ≠ k)) := by
  have hnodup (m : OrdMap κ ν) : m.toList.Nodup := List.Nodup.of_map _ m.nodup_keys
  refine (List.perm_ext_iff_of_nodup (hnodup _) ?_).mpr fun entry => ?_
  · exact List.nodup_cons.mpr ⟨by simp, (hnodup m).filter _⟩
  · obtain ⟨a, w⟩ := entry
    rw [ExtTreeMap.mem_toList_iff_getElem?_eq_some, getElem?_insert_eq, List.mem_cons,
      List.mem_filter, ExtTreeMap.mem_toList_iff_getElem?_eq_some]
    by_cases h : k = a
    · subst h
      simp [eq_comm]
    · simp [h, Ne.symm h]

/-- The entries of a map but the one under `k`, beside the value there. -/
theorem countBy_eq_filter (p : ν → Bool) (m : OrdMap κ ν) (k : κ) :
    countBy p m =
      ((m.toList.filter (·.1 ≠ k)).map (·.2)).countP p + (m[k]?.any p).toNat := by
  cases hk : m[k]? with
  | none =>
    have hall : m.toList.filter (·.1 ≠ k) = m.toList := by
      refine List.filter_eq_self.mpr fun entry hentry => ?_
      rw [ExtTreeMap.mem_toList_iff_getElem?_eq_some] at hentry
      refine decide_eq_true fun heq => ?_
      rw [heq, hk] at hentry
      cases hentry
    rw [hall]
    rfl
  | some v =>
    have hperm := toList_insert_perm m k v
    rw [insert_self m hk] at hperm
    rw [countBy, (hperm.map _).countP_eq, List.map_cons, List.countP_cons]
    show _ + _ = _ + (p v).toNat
    cases p v <;> rfl

/-- **Writing one value** moves a count by what stood under its key and what stands there now. -/
theorem countBy_insert (p : ν → Bool) (m : OrdMap κ ν) (k : κ) (v : ν) :
    countBy p (m.insert k v) + (m[k]?.any p).toNat = countBy p m + (p v).toNat := by
  have hrest : countBy p (m.insert k v) =
      ((m.toList.filter (·.1 ≠ k)).map (·.2)).countP p + (p v).toNat := by
    rw [countBy, ((toList_insert_perm m k v).map _).countP_eq, List.map_cons, List.countP_cons]
    show _ + _ = _ + (p v).toNat
    cases p v <;> rfl
  rw [hrest, countBy_eq_filter p m k]
  omega

omit [LawfulEqOrd κ] [DecidableEq κ] in
/-- Rewriting every value to one that counts the same leaves the count. -/
theorem countBy_map {p : ν → Bool} {f : κ → ν → ν} (hf : ∀ k v, p (f k v) = p v)
    (m : OrdMap κ ν) : countBy p (m.map f) = countBy p m := by
  simp only [countBy, ExtTreeMap.toList_map, List.map_map, List.countP_map]
  exact List.countP_congr fun entry _ => by simp [hf]

end OrdMap
