/-
  A YAML mapping as it is read: entries in the order they were written, no key twice.

  1. **Keys** — two keys are one where they are equal values.

  2. **Putting** — a value put under a key takes the place of an entry already there, and comes last
     otherwise.  Entries put one after another are the entries themselves where no key is written
     twice (`gather_of_apart`).

  3. **Documents** — `Distinct` holds of a value when no mapping in it writes a key twice, which is
     what its reader puts together.
-/
import Yunta.Persisted.Value

set_option linter.unusedVariables false

namespace Yunta.Yaml

namespace Value

/-! ## Equal keys -/

/-- Floats are equal as numbers: the two zeros are one. -/
def sameNumber : Number → Number → Bool
  | .unsigned m, .unsigned n => m == n
  | .signed m, .signed n => m == n
  | .float s, .float t => s == t || (["0.0", "-0.0"].contains s && ["0.0", "-0.0"].contains t)
  | _, _ => false

mutual

/-- Whether two values are equal. -/
def same : Value → Value → Bool
  | null, null => true
  | bool a, bool b => a == b
  | number m, number n => sameNumber m n
  | string s, string t => s == t
  | sequence items, sequence others => sameItems items others
  | mapping entries, mapping others => sameEntries entries others
  | _, _ => false

def sameItems : List Value → List Value → Bool
  | [], [] => true
  | v :: items, w :: others => same v w && sameItems items others
  | _, _ => false

def sameEntries : List (Value × Value) → List (Value × Value) → Bool
  | [], [] => true
  | (k, v) :: entries, (l, w) :: others => same k l && same v w && sameEntries entries others
  | _, _ => false

end

theorem same_string_left {key : String} {v : Value} :
    same (.string key) v = true ↔ v.asStr = some key := by
  cases v with
  | string text => simpa [same, asStr] using eq_comm
  | _ => simp [same, asStr]

theorem same_string_right {key : String} {v : Value} :
    same v (.string key) = true ↔ v.asStr = some key := by
  cases v <;> simp [same, asStr]

theorem eq_string_of_asStr {key : String} {v : Value} (h : v.asStr = some key) :
    v = .string key := by
  cases v <;> simp_all [asStr]

/-! ## How deep a value goes -/

mutual

/-- How many sequences and mappings lie one in another. -/
def depth : Value → Nat
  | sequence items => depthItems items + 1
  | mapping entries => depthEntries entries + 1
  | _ => 0

def depthItems : List Value → Nat
  | [] => 0
  | v :: rest => max (depth v) (depthItems rest)

def depthEntries : List (Value × Value) → Nat
  | [] => 0
  | (_, v) :: rest => max (depth v) (depthEntries rest)

end

theorem depth_le_items {items : List Value} {v : Value} (h : v ∈ items) :
    depth v ≤ depthItems items := by
  induction items with
  | nil => cases h
  | cons w rest ih =>
    show depth v ≤ max (depth w) (depthItems rest)
    rcases List.mem_cons.mp h with rfl | hrest
    · omega
    · have := ih hrest
      omega

theorem depth_le_entries {entries : List (Value × Value)} {e : Value × Value} (h : e ∈ entries) :
    depth e.2 ≤ depthEntries entries := by
  induction entries with
  | nil => cases h
  | cons f rest ih =>
    obtain ⟨key, w⟩ := f
    show depth e.2 ≤ max (depth w) (depthEntries rest)
    rcases List.mem_cons.mp h with rfl | hrest
    · exact Nat.le_max_left _ _
    · have := ih hrest
      omega

end Value

namespace Mapping

/-! ## Putting a value under a key -/

/-- The keys a mapping writes, as text. -/
def keys (mapping : List (Value × Value)) : List String := mapping.filterMap (·.1.asStr)

/-- `value` under `key`: in the place of an entry already there, last otherwise. -/
def put (mapping : List (Value × Value)) (key value : Value) : List (Value × Value) :=
  match mapping with
  | [] => [(key, value)]
  | entry :: rest =>
    if entry.1.same key then (entry.1, value) :: rest else entry :: put rest key value

/-- Entries put one after another. -/
def gather (entries : List (Value × Value)) : List (Value × Value) :=
  entries.foldl (fun kept entry => put kept entry.1 entry.2) []

/-- No key is written twice. -/
def Apart (mapping : List (Value × Value)) : Prop :=
  mapping.Pairwise fun entry other => entry.1.same other.1 = false

theorem put_of_new {mapping : List (Value × Value)} {key : Value}
    (h : ∀ entry ∈ mapping, entry.1.same key = false) (value : Value) :
    put mapping key value = mapping ++ [(key, value)] := by
  induction mapping with
  | nil => rfl
  | cons entry rest ih =>
    have hentry := h entry List.mem_cons_self
    show (if entry.1.same key then _ else _) = _
    rw [if_neg (by simp [hentry]), ih fun other hmem => h other (List.mem_cons_of_mem _ hmem)]
    rfl

/-- A key put is one already there or the one put. -/
theorem mem_put {mapping : List (Value × Value)} {key value : Value} {entry : Value × Value}
    (h : entry ∈ put mapping key value) :
    ((∃ other ∈ mapping, other.1 = entry.1) ∨ entry.1 = key) ∧ (entry ∈ mapping ∨ entry.2 = value) := by
  induction mapping with
  | nil =>
    obtain rfl := List.mem_singleton.mp h
    exact ⟨.inr rfl, .inr rfl⟩
  | cons first rest ih =>
    unfold put at h
    split_ifs at h with hfirst
    · rcases List.mem_cons.mp h with rfl | hrest
      · exact ⟨.inl ⟨first, List.mem_cons_self, rfl⟩, .inr rfl⟩
      · exact ⟨.inl ⟨entry, List.mem_cons_of_mem _ hrest, rfl⟩,
          .inl (List.mem_cons_of_mem _ hrest)⟩
    · rcases List.mem_cons.mp h with rfl | hrest
      · exact ⟨.inl ⟨entry, List.mem_cons_self, rfl⟩, .inl List.mem_cons_self⟩
      · obtain ⟨hkey, hvalue⟩ := ih hrest
        refine ⟨hkey.imp_left ?_, hvalue.imp_left (List.mem_cons_of_mem _)⟩
        rintro ⟨other, hother, heq⟩
        exact ⟨other, List.mem_cons_of_mem _ hother, heq⟩

theorem Apart.put {mapping : List (Value × Value)} (h : Apart mapping) (key value : Value) :
    Apart (put mapping key value) := by
  induction mapping with
  | nil => exact List.pairwise_singleton _ _
  | cons first rest ih =>
    obtain ⟨hfirst, hrest⟩ := List.pairwise_cons.mp h
    unfold Mapping.put
    split_ifs with hsame
    · exact List.pairwise_cons.mpr ⟨hfirst, hrest⟩
    · refine List.pairwise_cons.mpr ⟨fun entry hentry => ?_, ih hrest⟩
      rcases (mem_put hentry).1 with ⟨other, hother, heq⟩ | heq
      · exact heq ▸ hfirst other hother
      · rw [heq]
        simpa using hsame

theorem apart_gather (entries : List (Value × Value)) : Apart (gather entries) := by
  have hfold : ∀ kept, Apart kept →
      Apart (entries.foldl (fun kept entry => put kept entry.1 entry.2) kept) := by
    induction entries with
    | nil => exact fun kept h => h
    | cons entry rest ih => exact fun kept h => ih _ (h.put _ _)
  exact hfold [] List.Pairwise.nil

/-- The values put together are the values put. -/
theorem mem_gather {entries : List (Value × Value)} {entry : Value × Value}
    (h : entry ∈ gather entries) : ∃ other ∈ entries, other.2 = entry.2 := by
  have hfold : ∀ kept, entry ∈ entries.foldl (fun kept entry => put kept entry.1 entry.2) kept →
      entry ∈ kept ∨ ∃ other ∈ entries, other.2 = entry.2 := by
    clear h
    induction entries with
    | nil => exact fun kept h => .inl h
    | cons first rest ih =>
      intro kept hmem
      rcases ih _ hmem with hput | ⟨other, hother, heq⟩
      · rcases (mem_put hput).2 with hkept | heq
        · exact .inl hkept
        · exact .inr ⟨first, List.mem_cons_self, heq.symm⟩
      · exact .inr ⟨other, List.mem_cons_of_mem _ hother, heq⟩
  exact (hfold [] h).resolve_left (by simp)

/-- Where no key is written twice, nothing put takes another's place. -/
theorem gather_of_apart {entries : List (Value × Value)} (h : Apart entries) :
    gather entries = entries := by
  have hfold : ∀ kept, Apart (kept ++ entries) →
      entries.foldl (fun kept entry => put kept entry.1 entry.2) kept = kept ++ entries := by
    clear h
    induction entries with
    | nil => exact fun kept _ => (List.append_nil kept).symm
    | cons first rest ih =>
      intro kept happart
      have hnew : ∀ entry ∈ kept, entry.1.same first.1 = false := fun entry hentry =>
        (List.pairwise_append.mp happart).2.2 entry hentry first List.mem_cons_self
      rw [List.foldl_cons, put_of_new hnew, ih _ (by simpa using happart)]
      simp
  exact hfold [] h

/-- Of a mapping that writes no key twice, each key as text is written once. -/
theorem Apart.nodup_keys {mapping : List (Value × Value)} (h : Apart mapping) :
    (keys mapping).Nodup := by
  refine (List.pairwise_filterMap.mpr (h.imp ?_))
  intro entry other hsame key hkey key' hkey' heq
  subst heq
  rw [Value.eq_string_of_asStr hkey, Value.eq_string_of_asStr hkey'] at hsame
  simp [Value.same] at hsame

theorem mem_keys {mapping : List (Value × Value)} {key : String} :
    key ∈ keys mapping ↔ ∃ value, (Value.string key, value) ∈ mapping := by
  refine ⟨fun h => ?_, fun ⟨value, hmem⟩ => List.mem_filterMap.mpr ⟨_, hmem, rfl⟩⟩
  obtain ⟨⟨name, value⟩, hmem, hkey⟩ := List.mem_filterMap.mp h
  exact ⟨value, Value.eq_string_of_asStr hkey ▸ hmem⟩

theorem get_of_mem {mapping : List (Value × Value)} (h : (keys mapping).Nodup) {key : String}
    {value : Value} (hmem : (Value.string key, value) ∈ mapping) :
    get mapping key = some value := by
  induction mapping with
  | nil => cases hmem
  | cons entry rest ih =>
    have hsub : (keys rest).Sublist (keys (entry :: rest)) :=
      (List.sublist_cons_self entry rest).filterMap _
    rw [get_cons]
    rcases List.mem_cons.mp hmem with rfl | hrest
    · exact if_pos rfl
    · rw [if_neg, ih (h.sublist hsub) hrest]
      intro hfirst
      obtain ⟨name, held⟩ := entry
      obtain rfl := Value.eq_string_of_asStr hfirst
      exact (List.nodup_cons.mp (show (key :: keys rest).Nodup from h)).1
        (mem_keys.mpr ⟨value, hrest⟩)

end Mapping

/-! ## Documents -/

/-- No mapping in the value writes a key twice. -/
inductive Distinct : Value → Prop
  | null : Distinct .null
  | bool (b : Bool) : Distinct (.bool b)
  | number (n : Number) : Distinct (.number n)
  | string (text : String) : Distinct (.string text)
  | sequence {items : List Value} (each : ∀ v ∈ items, Distinct v) : Distinct (.sequence items)
  | mapping {entries : List (Value × Value)} (apart : Mapping.Apart entries)
      (each : ∀ e ∈ entries, Distinct e.2) : Distinct (.mapping entries)

namespace Distinct

variable {items : List Value} {entries : List (Value × Value)}

theorem item (h : Distinct (.sequence items)) {v : Value} (hv : v ∈ items) : Distinct v := by
  cases h with
  | sequence each => exact each v hv

theorem apart (h : Distinct (.mapping entries)) : Mapping.Apart entries := by
  cases h with
  | mapping apart each => exact apart

theorem value (h : Distinct (.mapping entries)) {e : Value × Value} (he : e ∈ entries) :
    Distinct e.2 := by
  cases h with
  | mapping apart each => exact each e he

theorem gather (h : ∀ e ∈ entries, Distinct e.2) : Distinct (.mapping (Mapping.gather entries)) := by
  refine .mapping (Mapping.apart_gather entries) fun e he => ?_
  obtain ⟨other, hother, heq⟩ := Mapping.mem_gather he
  exact heq ▸ h other hother

end Distinct

end Yunta.Yaml
