/-
  What rewriting a persisted document keeps.

  1. **What is written** — the object the writer makes holds the version under its key, then what the
     document writes, then what was unknown (`getElem?_object`); in YAML and in JSON alike.

  2. **What is read** — a file is read by its keys: the unknown ones are those the document does not
     write, but for `schema_version`, which is left out whatever the version key is
     (`getElem?_unknownBeside`).

  3. **Main result** — `kept_iff`: the document, the unknown keys and every undeclared one come back
     exactly where the version key is the default or stays what it was, the type reads the version
     written as the one it read, and JSON holds what is kept as it was written.  A type that names its
     version key otherwise loses a key and gains one (`not_kept`).
-/
import Yunta.Persisted.Document

set_option linter.unusedVariables false

namespace Yunta.Persisted.DocType

open Yaml

variable {α : Type} (T : DocType α)

/-! ## What the document writes -/

/-- What a document writes, by its keys. -/
def shown (doc : List α) : OrdMap String Value := .ofList (T.serialize doc) compare

theorem nodup_zip (doc : List α) : ((T.fields.zip doc).map fun held => held.1.key).Nodup := by
  suffices h : ((T.fields.zip doc).map fun held => held.1.key).Sublist (T.fields.map (·.key)) from
    h.nodup T.distinct
  induction T.fields generalizing doc with
  | nil => exact List.Sublist.refl _
  | cons field fields ih =>
    cases doc with
    | nil => exact List.nil_sublist _
    | cons a doc => exact (ih doc).cons_cons field.key

theorem keys_serialize (doc : List α) :
    ((T.serialize doc).map (·.1)).Sublist (T.fields.map (·.key)) := by
  unfold serialize
  induction T.fields generalizing doc with
  | nil => exact List.Sublist.refl _
  | cons field fields ih =>
    cases doc with
    | nil => exact List.nil_sublist _
    | cons a doc =>
      rw [List.zip_cons_cons, List.filterMap_cons, List.map_cons]
      cases hprint : field.print a with
      | none => simpa using (ih doc).cons field.key
      | some v => simpa using (ih doc).cons_cons field.key

theorem nodup_serialize (doc : List α) : ((T.serialize doc).map (·.1)).Nodup :=
  (T.keys_serialize doc).nodup T.distinct

/-- A key is written only by the field that declares it. -/
theorem getElem?_shown {doc : List α} {field : Field α} {a : α}
    (h : (field, a) ∈ T.fields.zip doc) : (T.shown doc)[field.key]? = field.print a := by
  refine Option.ext fun v => ?_
  rw [shown, OrdMap.getElem?_ofList_eq_some (T.nodup_serialize doc), serialize]
  simp only [List.mem_filterMap, Option.map_eq_some_iff, Prod.mk.injEq]
  constructor
  · rintro ⟨⟨field', a'⟩, hmem, v', hprint, hkey, rfl⟩
    obtain ⟨rfl, rfl⟩ := Prod.mk.inj (List.inj_on_of_nodup_map (T.nodup_zip doc) hmem h hkey)
    exact hprint
  · exact fun hprint => ⟨(field, a), h, v, hprint, rfl, rfl⟩

theorem declared_of_shown {doc : List α} {key : String} {v : Value}
    (h : (T.shown doc)[key]? = some v) : ∃ held ∈ T.fields.zip doc, held.1.key = key ∧
      held.1.print held.2 = some v := by
  have hmem := OrdMap.mem_of_getElem?_ofList h
  simp only [serialize, List.mem_filterMap, Option.map_eq_some_iff, Prod.mk.injEq] at hmem
  obtain ⟨held, hheld, v', hprint, hkey, rfl⟩ := hmem
  exact ⟨held, hheld, hkey, hprint⟩

/-! ## What is written -/

/-- The object `write_json` writes. -/
def object (read : PersistedDoc α) : OrdMap String Value :=
  read.unknown.toList.foldl (fun object kept =>
    if object.contains kept.1 then object else object.insert kept.1 kept.2)
    ((T.shown read.doc).insert T.versionKey T.stamp)

/-- **What is written under a key**: the version, what the document writes, or what was unknown. -/
theorem getElem?_object (read : PersistedDoc α) (key : String) :
    (T.object read)[key]? =
      if T.versionKey = key then some T.stamp else (T.shown read.doc)[key]?.or read.unknown[key]? := by
  unfold object
  rw [OrdMap.getElem?_orInsert, OrdMap.getElem?_insert_eq]
  split <;> rfl

theorem objectOf_insert {mapping : List (Value × Value)} (h : Mapping.Named mapping) (key : String)
    (v : Value) : objectOf (Mapping.insert mapping key v) = (objectOf mapping).insert key v := by
  refine Std.ExtTreeMap.ext_getElem? fun k => ?_
  rw [getElem?_objectOf (h.insert key v), Mapping.get_insert, OrdMap.getElem?_insert_eq,
    getElem?_objectOf h]
  simp [eq_comm]

theorem containsKey_eq {mapping : List (Value × Value)} (h : Mapping.Named mapping)
    (key : String) : Mapping.containsKey mapping key = (objectOf mapping).contains key := by
  rw [Mapping.containsKey, Std.ExtTreeMap.contains_eq_isSome_getElem?, getElem?_objectOf h]

/-- What YAML puts into a mapping, JSON puts into the object the mapping is. -/
theorem foldl_insert (kept : List (String × Value)) {mapping : List (Value × Value)}
    (h : Mapping.Named mapping) :
    let filled := kept.foldl (fun fields kept =>
      if Mapping.containsKey fields kept.1 then fields
      else Mapping.insert fields kept.1 kept.2) mapping
    Mapping.Named filled ∧
      objectOf filled = kept.foldl (fun object kept =>
        if object.contains kept.1 then object else object.insert kept.1 kept.2)
        (objectOf mapping) := by
  induction kept generalizing mapping with
  | nil => exact ⟨h, rfl⟩
  | cons entry kept ih =>
    simp only [List.foldl_cons]
    rw [← containsKey_eq h, ← objectOf_insert h]
    split
    · exact ih h
    · exact ih (h.insert _ _)

/-- **The two writers write the same**, under the same keys. -/
theorem writeYaml_eq (read : PersistedDoc α) :
    ∃ entries, T.writeYaml read = .mapping entries ∧ Mapping.Named entries ∧
      objectOf entries = T.object read := by
  have hordered := named_map (T.nodup_serialize read.doc)
  have hshown : objectOf ((T.serialize read.doc).map fun entry => (Value.string entry.1, entry.2)) =
      T.shown read.doc := by
    simp [objectOf, List.filterMap_map, Value.asStr, shown]
  have hfilled := foldl_insert read.unknown.toList (hordered.insert T.versionKey T.stamp)
  rw [objectOf_insert hordered, hshown] at hfilled
  exact ⟨_, rfl, hfilled⟩

/-! ## What is read -/

/-- The unknown keys of a file are those the document read does not write, but for the one a version
    stands under by default. -/
theorem getElem?_unknownBeside {value json : Value} (hnamed : Mapping.Named value.entries)
    (hjson : toJson value = some json) (doc : List α) (key : String) :
    (T.unknownBeside json doc)[key]? =
      if key = versionKeyDefault ∨ (T.shown doc).contains key then none
      else (Mapping.get value.entries key).bind toJson := by
  cases value with
  | mapping entries =>
    obtain ⟨object, rfl, hget⟩ := getElem?_of_toJson hnamed hjson
    have hany : (T.serialize doc).any (fun known => known.1 == key) =
        (T.shown doc).contains key := by
      rw [shown, Std.ExtTreeMap.contains_ofList, List.contains_eq_any_beq, List.any_map]
      simp [Function.comp_def, Bool.beq_comm]
    rw [unknownBeside, Std.ExtTreeMap.getElem?_filter', objectOf_ofObject, hget, hany]
    by_cases hdefault : key = versionKeyDefault
    · simp [hdefault]
    · cases hshown : (T.shown doc).contains key with
      | true => simp
      | false =>
        simp only [Value.entries]
        cases (Mapping.get entries key).bind toJson <;> simp [hdefault]
  | sequence items =>
    obtain ⟨read, -, rfl⟩ := Option.map_eq_some_iff.mp hjson
    simp [unknownBeside, Value.entries, Mapping.get]
  | number n => cases n <;> cases hjson <;> simp [unknownBeside, Value.entries, Mapping.get]
  | _ =>
    cases hjson
    simp [unknownBeside, Value.entries, Mapping.get]

theorem mapM_eq_some {β γ : Type} {f : β → Option γ} {items : List β} {read : List γ} :
    items.mapM f = some read ↔ List.Forall₂ (fun item a => f item = some a) items read := by
  induction items generalizing read with
  | nil => simp [eq_comm]
  | cons item items ih =>
    rw [List.mapM_cons, List.forall₂_cons_left_iff, Option.bind_eq_bind, Option.bind_eq_some_iff]
    simp only [Option.bind_eq_bind, Option.bind_eq_some_iff, ih, Option.pure_def,
      Option.some.injEq]
    exact ⟨fun ⟨a, ha, rest, hrest, heq⟩ => ⟨a, rest, ha, hrest, heq.symm⟩,
      fun ⟨a, rest, ha, hrest, heq⟩ => ⟨a, ha, rest, hrest, heq.symm⟩⟩

theorem get_reconciled (entries : List (Value × Value)) (key : String) :
    Mapping.get (entries.map T.rewriteEntry) key =
      (Mapping.get entries key).map (T.rewrite key) := by
  induction entries with
  | nil => rfl
  | cons entry entries ih =>
    rw [List.map_cons, Mapping.get_cons, Mapping.get_cons, ih]
    unfold rewriteEntry
    cases hname : entry.1.asStr with
    | none => simp [hname]
    | some name =>
      by_cases hkey : name = key
      · simp [hname, hkey]
      · simp [hname, hkey]

/-- A mapping is read field by field. -/
theorem deserialize_mapping {entries : List (Value × Value)} {doc : List α} :
    T.deserialize (T.reconcile (.mapping entries)) = some doc ↔
      List.Forall₂ (fun field a =>
        field.parse ((Mapping.get entries field.key).map (T.rewrite field.key)) = some a)
        T.fields doc := by
  simp only [reconcile, deserialize, get_reconciled]
  exact mapM_eq_some

/-- **What is read is read again**, as it is written. -/
theorem readsBack_of_deserialize {value : Value} {doc : List α}
    (h : T.deserialize (T.reconcile value) = some doc) :
    T.fields.length = doc.length ∧ ∀ field a, (field, a) ∈ T.fields.zip doc →
      field.parse ((field.print a).map (T.rewrite field.key)) = some a := by
  have hfield (read : Field α → Option Value)
      (hread : List.Forall₂ (fun field a =>
        field.parse ((read field).map (T.rewrite field.key)) = some a) T.fields doc) :
      T.fields.length = doc.length ∧ ∀ field a, (field, a) ∈ T.fields.zip doc →
        field.parse ((field.print a).map (T.rewrite field.key)) = some a := by
    obtain ⟨hlength, hzip⟩ := List.forall₂_iff_zip.mp hread
    exact ⟨hlength, fun field a hmem =>
      T.readsBack field (List.of_mem_zip hmem).1 (read field) a (hzip hmem)⟩
  cases value with
  | mapping entries => exact hfield _ (T.deserialize_mapping.mp h)
  | sequence items =>
    obtain ⟨hlength, hzip⟩ := List.forall₂_iff_zip.mp (T.readsBackAt items doc h)
    exact ⟨hlength, fun field a hmem => hzip hmem⟩
  | null =>
    have hnull : (if T.encoding = .yaml then T.fields.mapM fun field => field.parse none
        else none) = some doc := h
    split at hnull
    · exact hfield (fun _ => none) (mapM_eq_some.mp hnull)
    · cases hnull
  | _ => cases h

/-- What reading a file takes: its version, its document, and what is unknown beside it. -/
theorem readYaml_eq_ok {value : Value} {read : PersistedDoc α} :
    T.readYaml value = .ok read ↔
      ∃ json, toJson value = some json ∧
        (T.declaredVersion (Mapping.get json.entries T.versionKey)).bind T.checkVersion =
          .ok read.schemaVersion ∧
        T.deserialize (T.reconcile value) = some read.doc ∧
        T.unknownBeside json read.doc = read.unknown := by
  unfold readYaml
  cases hjson : toJson value with
  | none => simp
  | some json =>
    cases hversion : (T.declaredVersion (Mapping.get json.entries T.versionKey)) with
    | error error => simp [Bind.bind, Except.bind, hversion]
    | ok version =>
      cases hcheck : T.checkVersion version with
      | error error => simp [Bind.bind, Except.bind, hversion, hcheck]
      | ok checked =>
        cases hdoc : T.deserialize (T.reconcile value) with
        | none => simp [Bind.bind, Except.bind, hversion, hcheck]
        | some doc =>
          obtain ⟨schemaVersion, doc', unknown⟩ := read
          simp only [Bind.bind, Except.bind, hversion, hcheck, Except.ok.injEq,
            PersistedDoc.mk.injEq, Option.some.injEq, exists_eq_left']
          constructor
          · rintro ⟨rfl, rfl, rfl⟩
            exact ⟨rfl, rfl, rfl⟩
          · rintro ⟨rfl, rfl, rfl⟩
            exact ⟨rfl, rfl, rfl⟩

/-- **A JSON file is read as a YAML one that holds what it does.** -/
theorem readJson_eq (hjson : T.encoding = .json) {value : Value} (hheld : Yaml.Held value) :
    T.readJson value = T.readYaml value := by
  have hplain : T.reconcile value = value := by
    cases value with
    | mapping entries =>
      refine congrArg Value.mapping (List.map_id'' (fun entry => ?_) entries)
      unfold rewriteEntry
      split
      · rw [T.plain hjson]
      · rfl
    | _ => rfl
  unfold readJson readYaml
  rw [hplain, show toJson value = some value from hheld]

/-! ## What a rewrite keeps -/

/-- The keys a type declares: its fields', and the one it stamps its version under. -/
def Declares (key : Value) : Prop :=
  key = .string T.versionKey ∨ ∃ field ∈ T.fields, key = .string field.key

/-- What a rewrite needs of the file and of the document its type reads from it. -/
structure Rewritable (value : Value) (doc : List α) : Prop where
  /-- A field under the version key reads what is stamped as what it held. -/
  stamped : ∀ field a, (field, a) ∈ T.fields.zip doc → field.key = T.versionKey →
    field.parse (some (T.rewrite field.key T.stamp)) = some a
  /-- A version key of another name is one the document writes, or was stamped already. -/
  versioned : T.versionKey = versionKeyDefault ∨ (T.shown doc).contains T.versionKey = true ∨
    Mapping.get value.entries T.versionKey = some T.stamp
  /-- An undeclared key is a string, not the default version's, over what JSON holds as written. -/
  undeclared : ∀ entry ∈ value.entries, ¬ T.Declares entry.1 →
    (∃ key, entry.1 = .string key ∧ key ≠ versionKeyDefault) ∧ Yaml.Held entry.2
  /-- A declared key the document leaves out reads as it did from what JSON holds of it. -/
  leftOut : ∀ field a, (field, a) ∈ T.fields.zip doc → field.print a = none →
    field.key ≠ T.versionKey → field.key ≠ versionKeyDefault →
    ∀ v json, Mapping.get value.entries field.key = some v → toJson v = some json →
      field.parse (some (T.rewrite field.key json)) = some a

/-- What was read comes back from the mapping written, with each undeclared key of the file. -/
structure KeptIn (value : Value) (entries : List (Value × Value)) (read : PersistedDoc α) :
    Prop where
  again : ∃ again, T.readYaml (.mapping entries) = .ok again ∧ again.doc = read.doc ∧
    again.unknown = read.unknown
  undeclared : ∀ entry ∈ value.entries, ¬ T.Declares entry.1 → entry ∈ entries

section

variable {T} {value : Value} {entries : List (Value × Value)} {read : PersistedDoc α}

/-- What reading a file found unknown, key by key. -/
theorem getElem?_unknown (hnamed : Mapping.Named value.entries)
    (hread : T.readYaml value = .ok read) (key : String) :
    read.unknown[key]? =
      if key = versionKeyDefault ∨ (T.shown read.doc).contains key then none
      else (Mapping.get value.entries key).bind toJson := by
  obtain ⟨json, hjson, -, -, hunknown⟩ := T.readYaml_eq_ok.mp hread
  rw [← hunknown, T.getElem?_unknownBeside hnamed hjson]

/-- What is unknown, JSON holds as it is written. -/
theorem held_unknown (hnamed : Mapping.Named value.entries) (hread : T.readYaml value = .ok read)
    {key : String} {v : Value} (h : read.unknown[key]? = some v) : Yaml.Held v := by
  rw [getElem?_unknown hnamed hread] at h
  split at h
  · cases h
  · obtain ⟨held, -, hjson⟩ := Option.bind_eq_some_iff.mp h
    exact toJson_held hjson

/-- Where every undeclared key is a string, so is every key. -/
theorem named_of_undeclared (hdistinct : (value.entries.map (·.1)).Nodup)
    (h : ∀ entry ∈ value.entries, ¬ T.Declares entry.1 → ∃ key, entry.1 = .string key) :
    Mapping.Named value.entries := by
  refine ⟨fun key hkey => ?_, hdistinct⟩
  obtain ⟨entry, hentry, rfl⟩ := List.mem_map.mp hkey
  by_cases hdeclares : T.Declares entry.1
  · obtain heq | ⟨field, -, heq⟩ := hdeclares
    · exact ⟨_, heq⟩
    · exact ⟨_, heq⟩
  · exact h entry hentry hdeclares

/-- A key the type does not declare is none the document writes. -/
theorem shown_of_undeclared {key : String} (h : ¬ T.Declares (.string key)) (doc : List α) :
    (T.shown doc)[key]? = none := by
  cases hshown : (T.shown doc)[key]? with
  | none => rfl
  | some v =>
    obtain ⟨held, hheld, hkey, -⟩ := T.declared_of_shown hshown
    exact absurd (.inr ⟨held.1, (List.of_mem_zip hheld).1, by rw [hkey]⟩) h

theorem toJson_eq_stamp {v : Value} : toJson v = some T.stamp ↔ v = T.stamp := by
  constructor
  · intro h
    cases v with
    | number n => cases n <;> cases h; rfl
    | sequence items =>
      obtain ⟨_, -, heq⟩ := Option.map_eq_some_iff.mp h
      cases heq
    | mapping entries =>
      obtain ⟨_, -, heq⟩ := Option.map_eq_some_iff.mp h
      cases heq
    | _ => cases h
  · rintro rfl
    rfl

/-- What the mapping written reads as under a key. -/
theorem get_written (hentries : Mapping.Named entries) (hobject : objectOf entries = T.object read)
    (key : String) :
    Mapping.get entries key =
      if T.versionKey = key then some T.stamp
      else (T.shown read.doc)[key]?.or read.unknown[key]? := by
  rw [← getElem?_objectOf hentries, hobject, T.getElem?_object]

/-- **What comes back was rewritable.** -/
theorem rewritable_of_keptIn (hread : T.readYaml value = .ok read)
    (hdistinct : (value.entries.map (·.1)).Nodup) (hentries : Mapping.Named entries)
    (hobject : objectOf entries = T.object read) (h : T.KeptIn value entries read) :
    T.Rewritable value read.doc := by
  have hnamed : Mapping.Named value.entries :=
    named_of_undeclared hdistinct fun entry hentry hnot =>
      hentries.string entry.1 (List.mem_map_of_mem (h.undeclared entry hentry hnot))
  have hget := get_written hentries hobject
  obtain ⟨again, hagain, hdoc, hunknown⟩ := h.again
  obtain ⟨json, -, -, hagainDoc, -⟩ := T.readYaml_eq_ok.mp hagain
  rw [hdoc] at hagainDoc
  obtain ⟨-, hfield⟩ := List.forall₂_iff_zip.mp (T.deserialize_mapping.mp hagainDoc)
  refine ⟨fun field a hmem hkey => ?_, ?_, fun entry hentry hnot => ?_,
    fun field a hmem hprint hversion hdefault v json hheld hjson => ?_⟩
  · have hparse := hfield hmem
    rw [hget, if_pos hkey.symm] at hparse
    exact hparse
  · by_contra hnot
    rw [not_or, not_or] at hnot
    obtain ⟨hdefault, hshown, hstamped⟩ := hnot
    have hsame := getElem?_unknown (show Mapping.Named (Value.mapping entries).entries from hentries)
      hagain T.versionKey
    rw [hunknown, hdoc, getElem?_unknown hnamed hread] at hsame
    rw [if_neg (by simp [hdefault, hshown]), if_neg (by simp [hdefault, hshown])] at hsame
    rw [show Mapping.get (Value.mapping entries).entries T.versionKey = some T.stamp from
      (hget T.versionKey).trans (if_pos rfl)] at hsame
    obtain ⟨held, hheld, hjson⟩ := Option.bind_eq_some_iff.mp hsame
    exact hstamped (hheld.trans (congrArg some (toJson_eq_stamp.mp hjson)))
  · have hwritten := h.undeclared entry hentry hnot
    obtain ⟨name, v⟩ := entry
    obtain ⟨key, rfl⟩ := hnamed.string name (List.mem_map_of_mem hentry)
    have hversion : T.versionKey ≠ key := fun heq => hnot (.inl (by rw [heq]))
    rw [Mapping.mem_iff_get hentries, hget, if_neg hversion, shown_of_undeclared hnot,
      Option.none_or, getElem?_unknown hnamed hread] at hwritten
    split at hwritten
    · cases hwritten
    next hkey =>
      rw [(Mapping.mem_iff_get hnamed).mp hentry] at hwritten
      exact ⟨⟨key, rfl, fun heq => hkey (.inl heq)⟩, hwritten⟩
  · have hshown : (T.shown read.doc)[field.key]? = none := (T.getElem?_shown hmem).trans hprint
    have hparse := hfield hmem
    rw [hget, if_neg (Ne.symm hversion), hshown, Option.none_or, getElem?_unknown hnamed hread,
      if_neg (by simp [hdefault, Std.ExtTreeMap.contains_eq_isSome_getElem?, hshown]),
      hheld] at hparse
    simpa [hjson] using hparse

/-- The version written is one this binary reads. -/
theorem declaredVersion_stamp :
    (T.declaredVersion (some T.stamp)).bind T.checkVersion = .ok T.schemaVersion := by
  have hfound : T.stamp.asU64.filter (· < 2 ^ 32) = some T.schemaVersion := by
    show (some T.schemaVersion).filter _ = _
    rw [Option.filter_some, if_pos (by simpa using T.fits)]
  have hdeclared : T.declaredVersion (some T.stamp) = .ok T.schemaVersion := by
    unfold declaredVersion
    simp only [hfound]
  rw [hdeclared]
  exact if_neg (lt_irrefl T.schemaVersion)

/-- The mapping written is read, under the version this binary writes. -/
theorem readYaml_written (hnamed : Mapping.Named value.entries)
    (hread : T.readYaml value = .ok read) (hentries : Mapping.Named entries)
    (hobject : objectOf entries = T.object read)
    (hdoc : T.deserialize (T.reconcile (.mapping entries)) = some read.doc) :
    ∃ again, T.readYaml (.mapping entries) = .ok again ∧ again.doc = read.doc := by
  have hget := get_written hentries hobject
  have hjson (key : String) (v : Value) (hv : Mapping.get entries key = some v) :
      (toJson v).isSome := by
    rw [hget] at hv
    split at hv
    · cases hv
      rfl
    · obtain hshown | hunknown := Option.or_eq_some_iff.mp hv
      · obtain ⟨held, hheld, -, hprint⟩ := T.declared_of_shown hshown
        obtain ⟨json, hj, -⟩ := T.prints held.1 (List.of_mem_zip hheld).1 _ _ hprint
        exact Option.isSome_iff_exists.mpr ⟨json, hj⟩
      · exact Option.isSome_iff_exists.mpr ⟨v, held_unknown hnamed hread hunknown.2⟩
  have hall : ∀ entry ∈ entries, (spell entry.1).isSome ∧ (toJson entry.2).isSome := by
    rintro ⟨name, v⟩ hentry
    obtain ⟨key, rfl⟩ := hentries.string name (List.mem_map_of_mem hentry)
    exact ⟨rfl, hjson key v ((Mapping.mem_iff_get hentries).mp hentry)⟩
  obtain ⟨read', hread'⟩ := Option.isSome_iff_exists.mp (toJsonEntries_isSome hall)
  have htoJson : toJson (.mapping entries) =
      some (.mapping (ofObject (.ofList read' compare))) := by rw [toJson, hread']; rfl
  obtain ⟨object, hsame, hobject'⟩ := getElem?_of_toJson hentries htoJson
  let again : PersistedDoc α :=
    ⟨T.schemaVersion, read.doc,
      T.unknownBeside (.mapping (ofObject (.ofList read' compare))) read.doc⟩
  have hversion : (T.declaredVersion (Mapping.get (ofObject (.ofList read' compare))
      T.versionKey)).bind T.checkVersion = .ok T.schemaVersion := by
    rw [Value.mapping.inj hsame, get_ofObject, hobject', hget, if_pos rfl]
    exact declaredVersion_stamp
  exact ⟨again, T.readYaml_eq_ok.mpr ⟨_, htoJson, hversion, hdoc, rfl⟩, rfl⟩

/-- **What is rewritable comes back.** -/
theorem keptIn_of_rewritable (hread : T.readYaml value = .ok read)
    (hdistinct : (value.entries.map (·.1)).Nodup) (hentries : Mapping.Named entries)
    (hobject : objectOf entries = T.object read) (h : T.Rewritable value read.doc) :
    T.KeptIn value entries read := by
  have hnamed : Mapping.Named value.entries :=
    named_of_undeclared hdistinct fun entry hentry hnot => by
      obtain ⟨⟨key, heq, -⟩, -⟩ := h.undeclared entry hentry hnot
      exact ⟨key, heq⟩
  have hget := get_written hentries hobject
  have hdoc : T.deserialize (T.reconcile (.mapping entries)) = some read.doc := by
    obtain ⟨json, -, -, hdoc, -⟩ := T.readYaml_eq_ok.mp hread
    obtain ⟨hlength, hback⟩ := T.readsBack_of_deserialize hdoc
    refine T.deserialize_mapping.mpr (List.forall₂_iff_zip.mpr ⟨hlength, fun {field a} hmem => ?_⟩)
    have hagain := hback field a hmem
    rw [hget, T.getElem?_shown hmem]
    split
    next hversion => exact h.stamped field a hmem hversion.symm
    next hversion =>
      cases hprint : field.print a with
      | some v => simpa [hprint] using hagain
      | none =>
        rw [hprint] at hagain
        rw [Option.none_or, getElem?_unknown hnamed hread]
        split
        next => exact hagain
        next hkey =>
          cases hheld : Mapping.get value.entries field.key with
          | none => exact hagain
          | some v =>
            cases hjson : toJson v with
            | none => simpa [hjson] using hagain
            | some json =>
              have hleft := h.leftOut field a hmem hprint (Ne.symm hversion)
                (fun heq => hkey (.inl heq)) v json hheld hjson
              simpa [hjson] using hleft
  obtain ⟨again, hagain, hagainDoc⟩ := readYaml_written hnamed hread hentries hobject hdoc
  refine ⟨⟨again, hagain, hagainDoc, ?_⟩, fun entry hentry hnot => ?_⟩
  · refine Std.ExtTreeMap.ext_getElem? fun key => ?_
    rw [getElem?_unknown (show Mapping.Named (Value.mapping entries).entries from hentries) hagain,
      hagainDoc, getElem?_unknown hnamed hread]
    split
    next => rfl
    next hkey =>
      rw [not_or, Bool.not_eq_true, Std.ExtTreeMap.contains_eq_isSome_getElem?] at hkey
      obtain ⟨hdefault, hshown⟩ := hkey
      rw [Option.isSome_eq_false_iff, Option.isNone_iff_eq_none] at hshown
      show (Mapping.get entries key).bind toJson = _
      rw [hget, hshown, Option.none_or]
      split
      next hversion =>
        subst hversion
        obtain hnot | hnot | hstamped := h.versioned
        · exact absurd hnot hdefault
        · rw [Std.ExtTreeMap.contains_eq_isSome_getElem?, hshown] at hnot
          cases hnot
        · rw [hstamped]
      next =>
        rw [getElem?_unknown hnamed hread,
          if_neg (by simp [hdefault, Std.ExtTreeMap.contains_eq_isSome_getElem?, hshown])]
        cases Mapping.get value.entries key with
        | none => rfl
        | some v =>
          cases hjson : toJson v with
          | none => simp [hjson]
          | some json =>
            show (toJson v).bind toJson = toJson v
            rw [hjson]
            exact toJson_held hjson
  · obtain ⟨⟨key, hkey, hdefault⟩, hheld⟩ := h.undeclared entry hentry hnot
    obtain ⟨name, v⟩ := entry
    obtain rfl : name = .string key := hkey
    have hversion : T.versionKey ≠ key := fun heq => hnot (.inl (by rw [heq]))
    have hshown := shown_of_undeclared hnot read.doc
    rw [Mapping.mem_iff_get hentries, hget, if_neg hversion, hshown, Option.none_or,
      getElem?_unknown hnamed hread,
      if_neg (by simp [hdefault, Std.ExtTreeMap.contains_eq_isSome_getElem?, hshown]),
      (Mapping.mem_iff_get hnamed).mp hentry]
    exact hheld

end

/-! ## A rewrite of the file -/

/-- **What rewriting a file keeps**: reading back what is written gives the same document and the
    same unknown keys, which write the same again, and each top-level key of the file its type does
    not declare is still there with its value. -/
structure Kept (library : Library) (bytes written : List UInt8) (read : PersistedDoc α) : Prop where
  again : ∃ again, T.read library written = .ok again ∧ again.doc = read.doc ∧
    again.unknown = read.unknown ∧ T.write library again = .ok written
  undeclared : ∀ value, T.tree library bytes = some value → ∀ entry ∈ value.entries,
    ¬ T.Declares entry.1 → ∃ value', T.tree library written = some value' ∧ entry ∈ value'.entries

section

variable {T} {library : Library} {bytes written : List UInt8} {value : Value}
  {read : PersistedDoc α}

theorem named_of_held (h : Yaml.Held value) : Mapping.Named value.entries := by
  cases value with
  | mapping entries =>
    obtain ⟨object, rfl, -⟩ := held_mapping.mp h
    exact named_ofObject object
  | _ => exact ⟨fun key hkey => (List.not_mem_nil hkey).elim, List.nodup_nil⟩

theorem tree_distinct (h : T.tree library bytes = some value) :
    (value.entries.map (·.1)).Nodup := by
  unfold tree at h
  cases hencoding : T.encoding with
  | yaml =>
    rw [hencoding] at h
    exact library.once bytes value h
  | json =>
    rw [hencoding] at h
    exact (named_of_held (library.held bytes value h)).distinct

theorem read_eq (h : T.tree library bytes = some value) :
    T.read library bytes = T.readYaml value := by
  unfold DocType.read
  rw [h]
  cases hencoding : T.encoding with
  | yaml => rfl
  | json =>
    rw [tree, hencoding] at h
    exact T.readJson_eq hencoding (library.held bytes value h)

/-- What is written parses to a mapping that holds the writer's object. -/
theorem tree_written (htree : T.tree library bytes = some value)
    (hread : T.readYaml value = .ok read) (hwrite : T.write library read = .ok written) :
    ∃ entries, T.tree library written = some (.mapping entries) ∧ Mapping.Named entries ∧
      objectOf entries = T.object read := by
  unfold write at hwrite
  unfold tree at htree ⊢
  cases hencoding : T.encoding with
  | yaml =>
    obtain ⟨entries, hyaml, hnamed, hobject⟩ := T.writeYaml_eq read
    simp only [hencoding, hyaml] at hwrite
    split at hwrite
    next bytes hprint =>
      cases hwrite
      exact ⟨entries, library.parse_print _ _ hnamed.distinct hprint, hnamed, hobject⟩
    next => cases hwrite
  | json =>
    simp only [hencoding] at hwrite htree
    split at hwrite
    next bytes hprint =>
      cases hwrite
      have hheld : Yaml.Held (.mapping (ofObject (T.object read))) := held_ofObject fun key v hv => by
        rw [T.getElem?_object] at hv
        split at hv
        · cases hv
          rfl
        · obtain hshown | ⟨-, hunknown⟩ := Option.or_eq_some_iff.mp hv
          · obtain ⟨held, hmem, -, hprint⟩ := T.declared_of_shown hshown
            obtain ⟨json, hjson, hsame⟩ := T.prints held.1 (List.of_mem_zip hmem).1 _ _ hprint
            exact hsame hencoding ▸ hjson
          · exact held_unknown (named_of_held (library.held _ _ htree)) hread hunknown
      exact ⟨_, library.parseJson_printJson _ _ hheld hprint, named_ofObject _,
        objectOf_ofObject _⟩
    next => cases hwrite

theorem rewritable_of_kept (htree : T.tree library bytes = some value)
    (hread : T.read library bytes = .ok read) (hwrite : T.write library read = .ok written)
    (h : T.Kept library bytes written read) : T.Rewritable value read.doc := by
  rw [read_eq htree] at hread
  obtain ⟨entries, hwritten, hentries, hobject⟩ := tree_written htree hread hwrite
  obtain ⟨again, hagain, hsame, hunknown, -⟩ := h.again
  refine rewritable_of_keptIn hread (tree_distinct htree) hentries hobject
    ⟨⟨again, (read_eq hwritten).symm.trans hagain, hsame, hunknown⟩, fun entry hentry hnot => ?_⟩
  obtain ⟨value', htree', hmem⟩ := h.undeclared value htree entry hentry hnot
  obtain rfl := Option.some.inj (hwritten.symm.trans htree')
  exact hmem

theorem kept_of_rewritable (htree : T.tree library bytes = some value)
    (hread : T.read library bytes = .ok read) (hwrite : T.write library read = .ok written)
    (h : T.Rewritable value read.doc) : T.Kept library bytes written read := by
  rw [read_eq htree] at hread
  obtain ⟨entries, hwritten, hentries, hobject⟩ := tree_written htree hread hwrite
  obtain ⟨⟨again, hagain, hsame, hunknown⟩, hundeclared⟩ :=
    keptIn_of_rewritable hread (tree_distinct htree) hentries hobject h
  refine ⟨⟨again, (read_eq hwritten).trans hagain, hsame, hunknown, ?_⟩,
    fun value' htree' entry hentry hnot => ?_⟩
  · rw [← hwrite]
    unfold write writeYaml writeJson
    rw [hsame, hunknown]
  · obtain rfl := Option.some.inj (htree.symm.trans htree')
    exact ⟨_, hwritten, hundeclared entry hentry hnot⟩

/-- **A rewrite keeps what it is given** exactly where the file is rewritable, as the document its
    type reads from it. -/
theorem kept_iff (htree : T.tree library bytes = some value)
    (hread : T.read library bytes = .ok read) (hwrite : T.write library read = .ok written) :
    T.Kept library bytes written read ↔
      ∀ doc, T.deserialize (T.reconcile value) = some doc → T.Rewritable value doc := by
  obtain ⟨json, -, -, hdoc, -⟩ := T.readYaml_eq_ok.mp ((read_eq htree).symm.trans hread)
  constructor
  · intro h doc hread'
    obtain rfl : read.doc = doc := Option.some.inj (hdoc.symm.trans hread')
    exact rewritable_of_kept htree hread hwrite h
  · exact fun h => kept_of_rewritable htree hread hwrite (h read.doc hdoc)

end

/-! ## Two files -/

/-- A field that holds a text. -/
def textField (key : String) : Field String where
  key
  parse held := held.bind Value.asStr
  print text := some (.string text)

/-- A document of one text, under a version key of its own or the default one. -/
def named (encoding : Encoding) (versionKey : String) : DocType String where
  name := "document"
  schemaVersion := 1
  versionKey
  encoding
  fields := [textField "name"]
  fits := by decide
  distinct := by decide
  plain := fun _ _ _ => rfl
  readsBack field hfield held a _ := by
    rw [List.mem_singleton.mp hfield]
    rfl
  readsBackAt items doc h := by cases h
  prints field hfield a v hprint := by
    rw [List.mem_singleton.mp hfield] at hprint
    cases hprint
    exact ⟨_, rfl, fun _ => rfl⟩

/-- Bytes of a text of ASCII alone. -/
def ascii (text : String) : List UInt8 := text.toList.map fun c => .ofNat c.toNat

/-- A file with a later writer's key, and the one it is rewritten as. -/
def orderedFile : List UInt8 :=
  ascii "schema_version: 1\nname: kept\ntiers:\n  beta: 1\n  alpha: 2\n"

def orderedValue : Value :=
  .mapping [(.string "schema_version", .number (.unsigned 1)), (.string "name", .string "kept"),
    (.string "tiers", .mapping [(.string "beta", .number (.unsigned 1)),
      (.string "alpha", .number (.unsigned 2))])]

def sortedFile : List UInt8 :=
  ascii "name: kept\nschema_version: 1\ntiers:\n  alpha: 2\n  beta: 1\n"

def sortedValue : Value :=
  .mapping [(.string "name", .string "kept"), (.string "schema_version", .number (.unsigned 1)),
    (.string "tiers", .mapping [(.string "alpha", .number (.unsigned 2)),
      (.string "beta", .number (.unsigned 1))])]

/-- A file that holds the default version's key beside the one its type stamps. -/
def besideFile : List UInt8 := ascii "\x7b\"name\":\"kept\",\"schema_version\":7,\"version\":1\x7d"

def besideValue : Value :=
  .mapping [(.string "name", .string "kept"), (.string "schema_version", .number (.unsigned 7)),
    (.string "version", .number (.unsigned 1))]

def aloneFile : List UInt8 := ascii "\x7b\n  \"name\": \"kept\",\n  \"version\": 1\n\x7d"

def aloneValue : Value :=
  .mapping [(.string "name", .string "kept"), (.string "version", .number (.unsigned 1))]

/-- The library, on those files. -/
def texts : Library where
  parse bytes :=
    if bytes = orderedFile then some orderedValue
    else if bytes = sortedFile then some sortedValue
    else none
  print
    | .mapping [(.string "name", .string "kept"), (.string "schema_version", .number (.unsigned 1)),
        (.string "tiers", .mapping [(.string "alpha", .number (.unsigned 2)),
          (.string "beta", .number (.unsigned 1))])] => some sortedFile
    | _ => none
  parseJson bytes :=
    if bytes = besideFile then some besideValue
    else if bytes = aloneFile then some aloneValue
    else none
  printJson
    | .mapping [(.string "name", .string "kept"), (.string "version", .number (.unsigned 1))] =>
      some aloneFile
    | _ => none
  once bytes v h := by
    split at h
    · cases h
      simp [orderedValue, Value.entries]
    · split at h
      · cases h
        simp [sortedValue, Value.entries]
      · cases h
  held bytes v h := by
    split at h
    · cases h
      rfl
    · split at h
      · cases h
        rfl
      · cases h
  parse_print v bytes _ h := by
    split at h
    · cases h
      rw [if_neg (by decide), if_pos rfl]
      rfl
    · cases h
  parseJson_printJson v bytes _ h := by
    split at h
    · cases h
      rw [if_neg (by decide), if_pos rfl]
      rfl
    · cases h

/-- Whether a read and a write of a file succeed, and give these bytes. -/
def rewrites (T : DocType String) (file written : List UInt8) : Bool :=
  match T.read texts file with
  | .ok read =>
    match T.write texts read with
    | .ok bytes => bytes = written
    | .error _ => false
  | .error _ => false

theorem exists_of_rewrites {T : DocType String} {file written : List UInt8}
    (h : rewrites T file written = true) :
    ∃ read, T.read texts file = .ok read ∧ T.write texts read = .ok written := by
  unfold rewrites at h
  split at h
  next read hread =>
    split at h
    next bytes hwrite => exact ⟨read, hread, by rw [hwrite, of_decide_eq_true h]⟩
    next => cases h
  next => cases h

theorem kept_iff_sorted :
    let T := named .yaml versionKeyDefault
    ∃ read, T.read texts sortedFile = .ok read ∧ T.write texts read = .ok sortedFile ∧
      (T.Kept texts sortedFile sortedFile read ↔
        ∀ doc, T.deserialize (T.reconcile sortedValue) = some doc →
          T.Rewritable sortedValue doc) := by
  obtain ⟨read, hread, hwrite⟩ : ∃ read,
      (named .yaml versionKeyDefault).read texts sortedFile = .ok read ∧
        (named .yaml versionKeyDefault).write texts read = .ok sortedFile :=
    exists_of_rewrites (by decide +kernel)
  exact ⟨read, hread, hwrite, kept_iff rfl hread hwrite⟩

/-- **A rewrite loses**: the order a later writer's mapping was written in; and under a version key
    of another name, a key named `schema_version`. -/
theorem not_kept :
    (let T := named .yaml versionKeyDefault
      ∃ read, T.read texts orderedFile = .ok read ∧ T.write texts read = .ok sortedFile ∧
        ¬ T.Kept texts orderedFile sortedFile read) ∧
    (let T := named .json "version"
      ∃ read, T.read texts besideFile = .ok read ∧ T.write texts read = .ok aloneFile ∧
        ¬ T.Kept texts besideFile aloneFile read) := by
  constructor
  · obtain ⟨read, hread, hwrite⟩ : ∃ read,
        (named .yaml versionKeyDefault).read texts orderedFile = .ok read ∧
          (named .yaml versionKeyDefault).write texts read = .ok sortedFile :=
      exists_of_rewrites (by decide +kernel)
    refine ⟨read, hread, hwrite, fun hkept => ?_⟩
    have hrewritable := rewritable_of_kept rfl hread hwrite hkept
    have hlater : (Value.string "tiers", Value.mapping [(.string "beta", .number (.unsigned 1)),
        (.string "alpha", .number (.unsigned 2))]) ∈ orderedValue.entries := by
      simp [orderedValue, Value.entries]
    have hheld := (hrewritable.undeclared _ hlater (by simp [Declares, named, textField,
      versionKeyDefault])).2
    have hfirst : ((toJson (Value.mapping [(.string "beta", .number (.unsigned 1)),
        (.string "alpha", .number (.unsigned 2))])).bind fun read => read.entries.head?.bind
          fun entry => entry.1.asStr) = some "alpha" := by decide +kernel
    rw [hheld] at hfirst
    exact absurd hfirst (by decide)
  · obtain ⟨read, hread, hwrite⟩ : ∃ read,
        (named .json "version").read texts besideFile = .ok read ∧
          (named .json "version").write texts read = .ok aloneFile :=
      exists_of_rewrites (by decide +kernel)
    refine ⟨read, hread, hwrite, fun hkept => ?_⟩
    have hrewritable := rewritable_of_kept rfl hread hwrite hkept
    have hbeside : (Value.string "schema_version", Value.number (.unsigned 7)) ∈
        besideValue.entries := by simp [besideValue, Value.entries]
    obtain ⟨⟨key, hkey, hdefault⟩, -⟩ := hrewritable.undeclared _ hbeside
      (by simp [Declares, named, textField])
    exact hdefault (Value.string.inj hkey).symm

end Yunta.Persisted.DocType
