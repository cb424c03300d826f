/-
  YAML values, and what of one JSON holds.

  1. **Values** — a mapping keeps its entries in the order they were written, under keys of any kind.

  2. **Objects** — a JSON value is a YAML one whose mappings are keyed by strings, in their order.
     `toJson` is the one a YAML value is read as.

  3. **Main result** — `toJson_held`: what a value is read as is read as itself, so a second reading
     loses nothing that the first kept.
-/
import Mathlib.Data.List.Forall2
import Mathlib.Data.List.Nodup
import Yunta.Lib.OrdMap

set_option linter.unusedVariables false

namespace Yunta.Yaml

/-! ## Values -/

/-- A number, in the widest type that holds it; a float is told by the text it is written as. -/
inductive Number where
  | unsigned (n : Nat)
  | signed (n : Int)
  | float (text : String)
  deriving DecidableEq

inductive Value where
  | null
  | bool (b : Bool)
  | number (n : Number)
  | string (text : String)
  | sequence (items : List Value)
  | mapping (entries : List (Value × Value))

namespace Value

/-- What holds of a value once it holds of its parts holds of every value. -/
theorem induct {P : Value → Prop} (null : P .null) (bool : ∀ b, P (.bool b))
    (number : ∀ n, P (.number n)) (string : ∀ text, P (.string text))
    (sequence : ∀ items, (∀ v ∈ items, P v) → P (.sequence items))
    (mapping : ∀ entries, (∀ e ∈ entries, P e.2) → P (.mapping entries)) (v : Value) : P v := by
  refine @Value.rec P (fun items => ∀ v ∈ items, P v) (fun entries => ∀ e ∈ entries, P e.2)
    (fun e => P e.2) null bool number string sequence mapping ?_ ?_ ?_ ?_ ?_ v
  · intro v hv
    cases hv
  · intro v items hv hitems w hw
    rcases List.mem_cons.mp hw with rfl | hw
    · exact hv
    · exact hitems w hw
  · intro e he
    cases he
  · intro e entries he hentries e' he'
    rcases List.mem_cons.mp he' with rfl | he'
    · exact he
    · exact hentries e' he'
  · intro key v hkey hv
    exact hv

def asStr : Value → Option String
  | string text => some text
  | _ => none

def asU64 : Value → Option Nat
  | number (.unsigned n) => some n
  | number (.signed n) => if 0 ≤ n then some n.toNat else none
  | _ => none

/-- The entries of a mapping; none for any other value. -/
def entries : Value → List (Value × Value)
  | mapping entries => entries
  | _ => []

end Value

/-! ## Mappings -/

namespace Mapping

/-- The value under the key `key`. -/
def get (mapping : List (Value × Value)) (key : String) : Option Value :=
  (mapping.find? fun entry => entry.1.asStr == some key).map (·.2)

def containsKey (mapping : List (Value × Value)) (key : String) : Bool := (get mapping key).isSome

/-- `value` under `key`: in the place of an entry already there, last otherwise. -/
def insert (mapping : List (Value × Value)) (key : String) (value : Value) :
    List (Value × Value) :=
  match mapping with
  | [] => [(.string key, value)]
  | entry :: rest =>
    if entry.1.asStr == some key then (entry.1, value) :: rest
    else entry :: insert rest key value

/-- Every key of the mapping is a string, and none is written twice. -/
structure Named (mapping : List (Value × Value)) : Prop where
  string : ∀ key ∈ mapping.map (·.1), ∃ text, key = .string text
  distinct : (mapping.map (·.1)).Nodup

theorem get_cons (entry : Value × Value) (rest : List (Value × Value)) (key : String) :
    get (entry :: rest) key = if entry.1.asStr = some key then some entry.2 else get rest key := by
  unfold get
  by_cases h : entry.1.asStr = some key <;> simp [h]

/-- What a mapping holds under a string is what it reads as under it. -/
theorem mem_iff_get {mapping : List (Value × Value)} (h : Named mapping) {key : String}
    {v : Value} : (Value.string key, v) ∈ mapping ↔ get mapping key = some v := by
  induction mapping with
  | nil => simp [get]
  | cons entry rest ih =>
    have hrest : Named rest :=
      ⟨fun other hmem => h.string other (List.mem_cons_of_mem _ hmem),
        (List.nodup_cons.mp h.distinct).2⟩
    obtain ⟨name, held⟩ := entry
    obtain ⟨first, rfl⟩ : ∃ first, name = .string first := h.string name List.mem_cons_self
    rw [get_cons, List.mem_cons, ih hrest]
    by_cases hkey : first = key
    · subst hkey
      have hnot : get rest first ≠ some v := fun hget =>
        (List.nodup_cons.mp h.distinct).1 (List.mem_map.mpr ⟨_, (ih hrest).mpr hget, rfl⟩)
      simp [Value.asStr, hnot, eq_comm]
    · simp [Value.asStr, hkey, Ne.symm hkey]

theorem get_insert (mapping : List (Value × Value)) (key : String) (value : Value) (s : String) :
    get (insert mapping key value) s = if s = key then some value else get mapping s := by
  induction mapping with
  | nil =>
    show get [(.string key, value)] s = _
    rw [get_cons]
    by_cases h : s = key
    · simp [Value.asStr, h]
    · simp [Value.asStr, h, Ne.symm h]
  | cons entry rest ih =>
    unfold insert
    by_cases hentry : entry.1.asStr = some key
    · rw [if_pos (by simpa using hentry), get_cons, get_cons, hentry]
      by_cases h : s = key
      · simp [h]
      · simp [h, Ne.symm h]
    · rw [if_neg (by simpa using hentry), get_cons, get_cons, ih]
      by_cases h : s = key
      · simp [h, hentry]
      · simp [h]

theorem keys_insert (mapping : List (Value × Value)) (key : String) (value : Value) :
    (insert mapping key value).map (·.1) =
      if containsKey mapping key then mapping.map (·.1)
      else mapping.map (·.1) ++ [.string key] := by
  induction mapping with
  | nil => rfl
  | cons entry rest ih =>
    unfold insert containsKey
    rw [get_cons]
    by_cases hentry : entry.1.asStr = some key
    · simp [hentry]
    · rw [if_neg (by simpa using hentry), if_neg hentry, List.map_cons, ih]
      unfold containsKey
      split <;> rfl

theorem Named.insert {mapping : List (Value × Value)} (h : Named mapping) (key : String)
    (value : Value) : Named (Mapping.insert mapping key value) := by
  cases hheld : containsKey mapping key with
  | true =>
    have hkeys := keys_insert mapping key value
    rw [hheld, if_pos rfl] at hkeys
    exact ⟨hkeys ▸ h.string, hkeys ▸ h.distinct⟩
  | false =>
    have hkeys := keys_insert mapping key value
    rw [hheld, if_neg Bool.false_ne_true] at hkeys
    have hnew : Value.string key ∉ mapping.map (·.1) := fun hmem => by
      obtain ⟨⟨name, held⟩, hentry, rfl⟩ := List.mem_map.mp hmem
      rw [containsKey, (mem_iff_get h).mp hentry] at hheld
      cases hheld
    refine ⟨fun name hname => ?_, ?_⟩
    · rw [hkeys, List.mem_append, List.mem_singleton] at hname
      exact hname.elim (h.string name) fun heq => ⟨key, heq⟩
    · rw [hkeys]
      refine List.nodup_append.mpr
        ⟨h.distinct, List.nodup_singleton _, fun name hname other hother => ?_⟩
      rw [List.mem_singleton.mp hother]
      exact fun heq => hnew (heq ▸ hname)

end Mapping

/-! ## What JSON holds -/

/-- A JSON object's entries, in the order of their keys. -/
def ofObject (object : OrdMap String Value) : List (Value × Value) :=
  object.toList.map fun entry => (.string entry.1, entry.2)

/-- The object a mapping's entries under strings make. -/
def objectOf (mapping : List (Value × Value)) : OrdMap String Value :=
  .ofList (mapping.filterMap fun entry => entry.1.asStr.map fun key => (key, entry.2)) compare

/-- The string JSON spells a key as; none for one it has no spelling of. -/
def spell : Value → Option String
  | .string text => some text
  | .bool b => some (if b then "true" else "false")
  | .number (.unsigned n) => some (toString n)
  | .number (.signed n) => some (toString n)
  | .number (.float text) => some text
  | _ => none

mutual

/-- The JSON value a value is read as: its mappings keyed by strings, in their order; none where it
    holds a key JSON does not spell. -/
def toJson : Value → Option Value
  | .null => some .null
  | .bool b => some (.bool b)
  | .number n => some (.number n)
  | .string text => some (.string text)
  | .sequence items => (toJsonItems items).map .sequence
  | .mapping entries =>
    (toJsonEntries entries).map fun entries => .mapping (ofObject (.ofList entries compare))

def toJsonItems : List Value → Option (List Value)
  | [] => some []
  | item :: items =>
    match toJson item, toJsonItems items with
    | some item, some items => some (item :: items)
    | _, _ => none

def toJsonEntries : List (Value × Value) → Option (List (String × Value))
  | [] => some []
  | (key, value) :: entries =>
    match spell key, toJson value, toJsonEntries entries with
    | some key, some value, some entries => some ((key, value) :: entries)
    | _, _, _ => none

end

theorem named_map {entries : List (String × Value)} (h : (entries.map (·.1)).Nodup) :
    Mapping.Named (entries.map fun entry => (Value.string entry.1, entry.2)) := by
  have hkeys : (entries.map fun entry => (Value.string entry.1, entry.2)).map (·.1) =
      (entries.map (·.1)).map .string := by
    rw [List.map_map, List.map_map]
    rfl
  refine ⟨fun key hkey => ?_, ?_⟩
  · rw [hkeys] at hkey
    obtain ⟨text, -, rfl⟩ := List.mem_map.mp hkey
    exact ⟨text, rfl⟩
  · rw [hkeys]
    exact h.map fun a b heq => Value.string.inj heq

theorem named_ofObject (object : OrdMap String Value) : Mapping.Named (ofObject object) :=
  named_map object.nodup_keys

theorem get_ofObject (object : OrdMap String Value) (key : String) :
    Mapping.get (ofObject object) key = object[key]? := by
  refine Option.ext fun v => ?_
  rw [← Mapping.mem_iff_get (named_ofObject object),
    ← Std.ExtTreeMap.mem_toList_iff_getElem?_eq_some]
  simp [ofObject]

/-- **An object is read by its keys**, as the mapping is whose entries it holds. -/
theorem getElem?_objectOf {mapping : List (Value × Value)} (h : Mapping.Named mapping)
    (key : String) : (objectOf mapping)[key]? = Mapping.get mapping key := by
  have hkeys : ((mapping.filterMap fun entry => entry.1.asStr.map fun key => (key, entry.2)).map
      (·.1)).map Value.string = mapping.map (·.1) := by
    rw [List.map_map, List.map_filterMap, ← List.filterMap_eq_map]
    refine List.filterMap_congr fun entry hentry => ?_
    obtain ⟨text, htext⟩ := h.string entry.1 (List.mem_map_of_mem hentry)
    simp [htext, Value.asStr]
  have hdistinct := List.Nodup.of_map _ (hkeys ▸ h.distinct)
  refine Option.ext fun v => ?_
  rw [objectOf, OrdMap.getElem?_ofList_eq_some hdistinct, ← Mapping.mem_iff_get h]
  simp only [List.mem_filterMap, Option.map_eq_some_iff, Prod.mk.injEq]
  constructor
  · rintro ⟨⟨name, held⟩, hmem, text, htext, rfl, rfl⟩
    cases name with
    | string name => cases htext; exact hmem
    | _ => cases htext
  · exact fun hmem => ⟨_, hmem, key, rfl, rfl, rfl⟩

theorem objectOf_ofObject (object : OrdMap String Value) : objectOf (ofObject object) = object :=
  Std.ExtTreeMap.ext_getElem? fun key =>
    (getElem?_objectOf (named_ofObject object) key).trans (get_ofObject object key)

/-! ## What a value is read as -/

theorem mem_toJsonEntries {mapping : List (Value × Value)} {entries : List (String × Value)}
    (h : toJsonEntries mapping = some entries) {key : String} {json : Value} :
    (key, json) ∈ entries ↔
      ∃ entry ∈ mapping, spell entry.1 = some key ∧ toJson entry.2 = some json := by
  induction mapping generalizing entries with
  | nil =>
    cases h
    simp
  | cons entry mapping ih =>
    obtain ⟨name, value⟩ := entry
    unfold toJsonEntries at h
    split at h
    next key' json' entries' hkey hjson hentries =>
      cases h
      rw [List.mem_cons, ih hentries]
      simp [hkey, hjson, eq_comm]
    next => cases h

theorem keys_toJsonEntries {mapping : List (Value × Value)} {entries : List (String × Value)}
    (h : toJsonEntries mapping = some entries) :
    (mapping.map (·.1)).map spell = (entries.map (·.1)).map some := by
  induction mapping generalizing entries with
  | nil =>
    cases h
    rfl
  | cons entry mapping ih =>
    obtain ⟨name, value⟩ := entry
    unfold toJsonEntries at h
    split at h
    next key' json' entries' hkey hjson hentries =>
      cases h
      rw [List.map_cons, List.map_cons, ih hentries, hkey]
      rfl
    next => cases h

theorem map_string_of_spell {keys : List Value} {texts : List String}
    (hstring : ∀ key ∈ keys, ∃ text, key = .string text) (h : keys.map spell = texts.map some) :
    texts.map Value.string = keys := by
  induction keys generalizing texts with
  | nil =>
    cases texts with
    | nil => rfl
    | cons text texts => cases h
  | cons key keys ih =>
    cases texts with
    | nil => cases h
    | cons text texts =>
      obtain ⟨name, rfl⟩ := hstring key List.mem_cons_self
      obtain ⟨hhead, htail⟩ := List.cons.inj h
      cases hhead
      rw [List.map_cons, ih (fun key hkey => hstring key (List.mem_cons_of_mem _ hkey)) htail]

/-- A mapping is read where each of its keys is spelled and each of its values read. -/
theorem toJsonEntries_isSome {mapping : List (Value × Value)}
    (h : ∀ entry ∈ mapping, (spell entry.1).isSome ∧ (toJson entry.2).isSome) :
    (toJsonEntries mapping).isSome := by
  induction mapping with
  | nil => rfl
  | cons entry mapping ih =>
    obtain ⟨key, hkey⟩ := Option.isSome_iff_exists.mp (h entry List.mem_cons_self).1
    obtain ⟨json, hjson⟩ := Option.isSome_iff_exists.mp (h entry List.mem_cons_self).2
    obtain ⟨entries, hentries⟩ := Option.isSome_iff_exists.mp
      (ih fun other hmem => h other (List.mem_cons_of_mem _ hmem))
    simp [toJsonEntries, hkey, hjson, hentries]

/-- The object a mapping under strings is read as holds what each of its values is read as. -/
theorem getElem?_of_toJson {mapping : List (Value × Value)} (hnamed : Mapping.Named mapping)
    {json : Value} (h : toJson (.mapping mapping) = some json) :
    ∃ object : OrdMap String Value, json = .mapping (ofObject object) ∧
      ∀ key, object[key]? = (Mapping.get mapping key).bind toJson := by
  obtain ⟨entries, hentries, rfl⟩ := Option.map_eq_some_iff.mp h
  refine ⟨.ofList entries compare, rfl, fun key => ?_⟩
  have hkeys : (entries.map (·.1)).map Value.string = mapping.map (·.1) :=
    map_string_of_spell hnamed.string (keys_toJsonEntries hentries)
  have hdistinct := List.Nodup.of_map _ (hkeys ▸ hnamed.distinct)
  refine Option.ext fun v => ?_
  rw [OrdMap.getElem?_ofList_eq_some hdistinct, mem_toJsonEntries hentries,
    Option.bind_eq_some_iff]
  constructor
  · rintro ⟨⟨name, value⟩, hmem, hspell, hjson⟩
    obtain ⟨text, rfl⟩ := hnamed.string name (List.mem_map_of_mem hmem)
    cases hspell
    exact ⟨value, (Mapping.mem_iff_get hnamed).mp hmem, hjson⟩
  · rintro ⟨value, hget, hjson⟩
    exact ⟨_, (Mapping.mem_iff_get hnamed).mpr hget, rfl, hjson⟩

/-- A value is held where JSON holds it as it is written. -/
def Held (v : Value) : Prop := toJson v = some v

/-- An object is held where each of its values is. -/
theorem held_ofObject {object : OrdMap String Value}
    (h : ∀ (key : String) (v : Value), object[key]? = some v → Held v) : Held (.mapping (ofObject object)) := by
  have hnamed := named_ofObject object
  have hall : ∀ entry ∈ ofObject object, (spell entry.1).isSome ∧ (toJson entry.2).isSome := by
    intro entry hentry
    obtain ⟨⟨key, v⟩, hmem, rfl⟩ := List.mem_map.mp hentry
    have hheld := h key v (Std.ExtTreeMap.mem_toList_iff_getElem?_eq_some.mp hmem)
    exact ⟨rfl, Option.isSome_iff_exists.mpr ⟨v, hheld⟩⟩
  obtain ⟨entries, hentries⟩ := Option.isSome_iff_exists.mp (toJsonEntries_isSome hall)
  obtain ⟨read, hread, hget⟩ := getElem?_of_toJson hnamed
    (show toJson (.mapping (ofObject object)) = some _ by rw [toJson, hentries]; rfl)
  have hsame : read = object := Std.ExtTreeMap.ext_getElem? fun key => by
    rw [hget, get_ofObject]
    cases hheld : object[key]? with
    | none => rfl
    | some v => exact h key v hheld
  unfold Held
  rw [toJson, hentries]
  show some _ = some _
  rw [hread, hsame]

theorem toJsonItems_held {items read : List Value}
    (ih : ∀ v ∈ items, ∀ {json : Value}, toJson v = some json → Held json)
    (h : toJsonItems items = some read) : toJsonItems read = some read := by
  induction items generalizing read with
  | nil =>
    cases h
    rfl
  | cons item items step =>
    unfold toJsonItems at h
    split at h
    next json rest hjson hrest =>
      cases h
      have hheld : toJson json = some json := ih item List.mem_cons_self hjson
      have htail := step (fun v hv => ih v (List.mem_cons_of_mem _ hv)) hrest
      simp [toJsonItems, hheld, htail]
    next => cases h

/-- **What a value is read as, JSON holds as it is written.** -/
theorem toJson_held {v json : Value} (h : toJson v = some json) : Held json := by
  induction v using Value.induct generalizing json with
  | null => cases h; rfl
  | bool b => cases h; rfl
  | number n => cases n <;> cases h <;> rfl
  | string text => cases h; rfl
  | sequence items ih =>
    obtain ⟨read, hread, rfl⟩ := Option.map_eq_some_iff.mp h
    exact congrArg (Option.map Value.sequence) (toJsonItems_held ih hread)
  | mapping entries ih =>
    obtain ⟨read, hread, rfl⟩ := Option.map_eq_some_iff.mp h
    refine held_ofObject fun key held hheld => ?_
    obtain ⟨entry, hentry, -, hjson⟩ :=
      (mem_toJsonEntries hread).mp (OrdMap.mem_of_getElem?_ofList hheld)
    exact ih entry hentry hjson

/-- **A mapping JSON holds as it is written** is an object's entries, each of them held. -/
theorem held_mapping {mapping : List (Value × Value)} :
    Held (.mapping mapping) ↔
      ∃ object : OrdMap String Value, mapping = ofObject object ∧
        ∀ (key : String) (v : Value), object[key]? = some v → Held v := by
  constructor
  · intro h
    obtain ⟨read, hread, heq⟩ := Option.map_eq_some_iff.mp h
    refine ⟨_, (Value.mapping.inj heq).symm, fun key v hheld => ?_⟩
    obtain ⟨entry, -, -, hjson⟩ :=
      (mem_toJsonEntries hread).mp (OrdMap.mem_of_getElem?_ofList hheld)
    exact toJson_held hjson
  · rintro ⟨object, rfl, hvalues⟩
    exact held_ofObject hvalues

end Yunta.Yaml
