/-
  Entries kept by key, each key where it first joined, each value the one written last.

  1. **The fold** — `order` lists the keys of a list of entries as each joined, `lastOf` answers
     the last entry under a key, and `readback` walks the keys and answers the entries.  A map that
     remembers the order of its insertions and replaces in place holds exactly this.  The keys stand
     in the order of their first entries (`order_rising`).

  2. **Its last entry** — the last entry read back is the one under the key that joined last
     (`order_getLast`), which is the last entry written only when no key joined after the first
     entry under it (`readback_getLast`).
-/
import Mathlib.Data.List.Induction
import Yunta.Lib.Saturate

set_option linter.unusedVariables false
set_option linter.unusedSectionVars false

namespace Joined

variable {α κ : Type*} [DecidableEq κ] (key : α → κ)

/-- The keys, in the order each joined. -/
def order (entries : List α) : List κ := Saturate.addAll [] (entries.map key)

/-- The last entry under a key. -/
def lastOf (entries : List α) (k : κ) : Option α := (entries.filter fun e => key e = k).getLast?

/-- One entry for each key: the last one under it, where the key joined. -/
def readback (entries : List α) : List α := (order key entries).filterMap (lastOf key entries)

/-! ## The keys -/

theorem order_snoc (entries : List α) (e : α) :
    order key (entries ++ [e]) = Saturate.add (order key entries) (key e) := by
  simp [order, Saturate.addAll]

@[simp] theorem mem_order {entries : List α} {k : κ} :
    k ∈ order key entries ↔ ∃ e ∈ entries, key e = k := by
  simp [order]

/-- A key that joined before an entry keeps the order as it was. -/
theorem order_snoc_of_mem {entries : List α} {e : α} (h : ∃ other ∈ entries, key other = key e) :
    order key (entries ++ [e]) = order key entries := by
  rw [order_snoc]
  have hmem : key e ∈ order key entries := (mem_order key).mpr h
  exact if_pos (by simpa using hmem)

theorem order_snoc_of_new {entries : List α} {e : α}
    (h : ¬ ∃ other ∈ entries, key other = key e) :
    order key (entries ++ [e]) = order key entries ++ [key e] := by
  rw [order_snoc]
  have hnew : key e ∉ order key entries := fun hmem => h ((mem_order key).mp hmem)
  exact if_neg (by simpa using hnew)

/-- **The keys stand in the order of their first entries**, each once. -/
theorem order_rising [BEq κ] [LawfulBEq κ] (entries : List α) :
    (order key entries).Pairwise fun a b =>
      (entries.map key).idxOf a < (entries.map key).idxOf b := by
  induction entries using List.reverseRecOn with
  | nil => exact List.Pairwise.nil
  | append_singleton entries e ih =>
    -- an entry at the end leaves where the keys before it first stand
    have hkeep : ∀ k ∈ order key entries,
        ((entries ++ [e]).map key).idxOf k = (entries.map key).idxOf k := by
      intro k hk
      obtain ⟨other, hother, hk⟩ := (mem_order key).mp hk
      rw [List.map_append, List.idxOf_append_of_mem (List.mem_map.mpr ⟨other, hother, hk⟩)]
    have hbefore : (order key entries).Pairwise fun a b =>
        ((entries ++ [e]).map key).idxOf a < ((entries ++ [e]).map key).idxOf b := by
      refine List.Pairwise.imp_of_mem ?_ ih
      intro a b ha hb hab
      rwa [hkeep a ha, hkeep b hb]
    by_cases hmem : ∃ other ∈ entries, key other = key e
    · rwa [order_snoc_of_mem key hmem]
    · rw [order_snoc_of_new key hmem, List.pairwise_append]
      refine ⟨hbefore, List.pairwise_singleton _ _, ?_⟩
      intro a ha b hb
      rw [List.mem_singleton.mp hb, hkeep a ha]
      obtain ⟨other, hother, ha⟩ := (mem_order key).mp ha
      have hold : a ∈ entries.map key := List.mem_map.mpr ⟨other, hother, ha⟩
      have hnew : key e ∉ entries.map key := by
        intro h
        obtain ⟨other, hother, heq⟩ := List.mem_map.mp h
        exact hmem ⟨other, hother, heq⟩
      have hlt := List.idxOf_lt_length_of_mem hold
      rw [List.map_append, List.idxOf_append_of_notMem hnew]
      omega

theorem order_nodup (entries : List α) : (order key entries).Nodup :=
  (order_rising key entries).imp fun hab heq => by
    rw [heq] at hab
    exact Nat.lt_irrefl _ hab

/-- `k` joined last: from the first entry under it on, every entry is under `k` or under a key an
    entry before it had brought in. -/
def JoinedLast (entries : List α) (k : κ) : Prop :=
  ∃ before own after, entries = before ++ own :: after ∧ key own = k ∧
    (∀ e ∈ before, key e ≠ k) ∧
    ∀ e ∈ after, key e = k ∨ ∃ earlier ∈ before, key earlier = key e

/-- Where a list with an entry at its end is split: at that entry, or before it. -/
theorem snoc_eq_split {entries before after : List α} {e own : α}
    (h : entries ++ [e] = before ++ own :: after) :
    (before = entries ∧ own = e ∧ after = []) ∨
      ∃ rest, after = rest ++ [e] ∧ entries = before ++ own :: rest := by
  rcases List.eq_nil_or_concat after with rfl | ⟨rest, last, rfl⟩
  · obtain ⟨hbefore, hown⟩ := List.append_inj' h rfl
    refine .inl ⟨hbefore.symm, ?_, rfl⟩
    simpa using hown.symm
  · have hsnoc : entries ++ [e] = (before ++ own :: rest) ++ [last] := by
      rw [h]
      simp
    obtain ⟨hentries, hlast⟩ := List.append_inj' hsnoc rfl
    obtain rfl : e = last := by simpa using hlast
    exact .inr ⟨rest, by simp, hentries⟩

/-- An entry under a key that joined before leaves who joined last as it was. -/
theorem joinedLast_snoc_of_mem {entries : List α} {e : α} {k : κ}
    (hmem : ∃ other ∈ entries, key other = key e) :
    JoinedLast key (entries ++ [e]) k ↔ JoinedLast key entries k := by
  obtain ⟨other, hother, hkey⟩ := hmem
  constructor
  · rintro ⟨before, own, after, hsplit, hk, hbefore, hafter⟩
    rcases snoc_eq_split hsplit with ⟨rfl, rfl, rfl⟩ | ⟨rest, rfl, hentries⟩
    · exact absurd (hkey.trans hk) (hbefore other hother)
    · exact ⟨before, own, rest, hentries, hk, hbefore, fun x hx => hafter x (by simp [hx])⟩
  · rintro ⟨before, own, after, rfl, rfl, hbefore, hafter⟩
    refine ⟨before, own, after ++ [e], by simp, rfl, hbefore, ?_⟩
    intro x hx
    rcases List.mem_append.mp hx with hx | hx
    · exact hafter x hx
    · -- the new entry's key is the one of an entry before, wherever the split leaves that one
      obtain rfl := List.mem_singleton.mp hx
      rcases List.mem_append.mp hother with hb | hb
      · exact .inr ⟨other, hb, hkey⟩
      · rcases List.mem_cons.mp hb with rfl | hb
        · exact .inl hkey.symm
        · rcases hafter other hb with h | ⟨earlier, he, hk⟩
          · exact .inl (hkey.symm.trans h)
          · exact .inr ⟨earlier, he, hk.trans hkey⟩

/-- An entry that brings its key in joins last. -/
theorem joinedLast_snoc_of_new {entries : List α} {e : α} {k : κ}
    (hnew : ¬ ∃ other ∈ entries, key other = key e) :
    JoinedLast key (entries ++ [e]) k ↔ key e = k := by
  constructor
  · rintro ⟨before, own, after, hsplit, rfl, hbefore, hafter⟩
    rcases snoc_eq_split hsplit with ⟨rfl, rfl, rfl⟩ | ⟨rest, rfl, rfl⟩
    · rfl
    · exfalso
      rcases hafter e (by simp) with h | ⟨earlier, he, hk⟩
      · exact hnew ⟨own, by simp, h.symm⟩
      · exact hnew ⟨earlier, by simp [he], hk⟩
  · rintro rfl
    refine ⟨entries, e, [], rfl, rfl, ?_, by simp⟩
    intro x hx heq
    exact hnew ⟨x, hx, heq⟩

/-- **The last key of the order is the one that joined last.** -/
theorem order_getLast (entries : List α) (k : κ) :
    (order key entries).getLast? = some k ↔ JoinedLast key entries k := by
  induction entries using List.reverseRecOn with
  | nil =>
    constructor
    · intro h
      cases h
    · rintro ⟨before, own, after, hnil, -⟩
      simp at hnil
  | append_singleton entries e ih =>
    by_cases hmem : ∃ other ∈ entries, key other = key e
    · rw [order_snoc_of_mem key hmem, ih, joinedLast_snoc_of_mem key hmem]
    · rw [order_snoc_of_new key hmem, joinedLast_snoc_of_new key hmem]
      simp

/-! ## What is read back -/

theorem lastOf_key {entries : List α} {k : κ} {e : α} (h : lastOf key entries k = some e) :
    e ∈ entries ∧ key e = k := by
  have hmem := List.mem_of_getLast? h
  simpa using hmem

theorem lastOf_isSome {entries : List α} {k : κ} :
    (lastOf key entries k).isSome = true ↔ ∃ e ∈ entries, key e = k := by
  rw [lastOf, List.getLast?_isSome]
  constructor
  · intro h
    obtain ⟨e, he⟩ := List.exists_mem_of_ne_nil _ h
    exact ⟨e, by simpa using he⟩
  · rintro ⟨e, he, hk⟩
    exact List.ne_nil_of_mem (List.mem_filter.mpr ⟨he, by simpa using hk⟩)

theorem lastOf_snoc (entries : List α) (e : α) (k : κ) :
    lastOf key (entries ++ [e]) k = if key e = k then some e else lastOf key entries k := by
  unfold lastOf
  by_cases h : key e = k
  · simp [List.filter_append, h]
  · simp [List.filter_append, h]

/-- What is read back is under the keys, in their order. -/
theorem readback_map (entries : List α) : (readback key entries).map key = order key entries := by
  have hkeys : ∀ keys : List κ, (∀ k ∈ keys, ∃ e ∈ entries, key e = k) →
      (keys.filterMap (lastOf key entries)).map key = keys := by
    intro keys hkeys
    induction keys with
    | nil => rfl
    | cons k keys ih =>
      obtain ⟨e, he⟩ := Option.isSome_iff_exists.mp ((lastOf_isSome key).mpr (hkeys k (by simp)))
      rw [List.filterMap_cons_some he, List.map_cons, (lastOf_key key he).2,
        ih fun k hk => hkeys k (by simp [hk])]
  exact hkeys _ fun k hk => (mem_order key).mp hk

/-- An entry read back is the last one under its key. -/
theorem lastOf_of_mem_readback {entries : List α} {e : α} (h : e ∈ readback key entries) :
    lastOf key entries (key e) = some e := by
  obtain ⟨k, -, hk⟩ := List.mem_filterMap.mp h
  rwa [(lastOf_key key hk).2]

/-- The last entry read back is the last one under the key that joined last. -/
theorem readback_getLast? (entries : List α) :
    (readback key entries).getLast? =
      (order key entries).getLast?.bind (lastOf key entries) := by
  rcases List.eq_nil_or_concat (order key entries) with hnil | ⟨keys, k, hkeys⟩
  · simp [readback, hnil]
  · have hk : k ∈ order key entries := by
      rw [hkeys]
      simp
    obtain ⟨e, he⟩ := Option.isSome_iff_exists.mp ((lastOf_isSome key).mpr ((mem_order key).mp hk))
    rw [readback, hkeys, List.concat_eq_append, List.filterMap_append]
    simp [he]

/-- **One more entry** is read back last, or leaves the one read back last as it was. -/
theorem readback_snoc_getLast? (entries : List α) (e : α) :
    (readback key (entries ++ [e])).getLast? = some e ∨
      (readback key (entries ++ [e])).getLast? = (readback key entries).getLast? := by
  rw [readback_getLast?, readback_getLast?]
  by_cases hmem : ∃ other ∈ entries, key other = key e
  · rw [order_snoc_of_mem key hmem]
    cases (order key entries).getLast? with
    | none => exact .inr rfl
    | some k =>
      rw [Option.bind_some, Option.bind_some, lastOf_snoc]
      split
      · exact .inl rfl
      · exact .inr rfl
  · left
    rw [order_snoc_of_new key hmem]
    simp [lastOf_snoc]

/-- **What is read back last is what was written last exactly when its key joined last.** -/
theorem readback_getLast {entries : List α} {e : α} (h : entries.getLast? = some e) :
    (readback key entries).getLast? = some e ↔ JoinedLast key entries (key e) := by
  rw [readback_getLast?, ← order_getLast]
  have hown : lastOf key entries (key e) = some e := by
    obtain ⟨init, rfl⟩ := List.getLast?_eq_some_iff.mp h
    simp [lastOf_snoc]
  constructor
  · intro hread
    obtain ⟨k, hk, hlast⟩ := Option.bind_eq_some_iff.mp hread
    rw [hk, (lastOf_key key hlast).2]
  · intro hk
    rw [hk]
    exact hown

/-! ## A part of the keys -/

theorem addAll_filter (p : κ → Bool) (held new : List κ) :
    (Saturate.addAll held new).filter p =
      Saturate.addAll (held.filter p) (new.filter p) := by
  induction new generalizing held with
  | nil => rfl
  | cons k new ih =>
    show (Saturate.addAll (Saturate.add held k) new).filter p = _
    rw [ih]
    by_cases hp : p k = true
    · have hadd : (Saturate.add held k).filter p = Saturate.add (held.filter p) k := by
        unfold Saturate.add
        by_cases hk : k ∈ held
        · simp [hk, hp]
        · simp [hk, hp]
      rw [hadd, List.filter_cons_of_pos hp]
      rfl
    · have hadd : (Saturate.add held k).filter p = held.filter p := by
        unfold Saturate.add
        split
        · rfl
        · simp [List.filter_append, hp]
      rw [hadd, List.filter_cons_of_neg hp]

/-- **Reading back the entries under some keys is keeping those of what is read back.** -/
theorem readback_filter (p : κ → Bool) (entries : List α) :
    readback key (entries.filter fun e => p (key e)) =
      (readback key entries).filter fun e => p (key e) := by
  have horder : order key (entries.filter fun e => p (key e)) = (order key entries).filter p := by
    unfold order
    rw [addAll_filter, List.filter_nil, List.filter_map]
    rfl
  have hlast : ∀ k, p k = true →
      lastOf key (entries.filter fun e => p (key e)) k = lastOf key entries k := by
    intro k hk
    unfold lastOf
    rw [List.filter_filter]
    congr 1
    refine List.filter_congr fun e _ => ?_
    by_cases he : key e = k
    · simp [he, hk]
    · simp [he]
  rw [readback, horder, readback, List.filterMap_filter, List.filter_filterMap]
  refine List.filterMap_congr fun k _ => ?_
  by_cases hk : p k = true
  · rw [if_pos hk, hlast k hk]
    cases he : lastOf key entries k with
    | none => rfl
    | some e =>
      have hp : p (key e) = true := by
        rw [(lastOf_key key he).2]
        exact hk
      simp [Option.filter, hp]
  · rw [if_neg hk]
    symm
    rw [Option.filter_eq_none_iff]
    intro e he
    rw [(lastOf_key key he).2]
    exact hk

end Joined
