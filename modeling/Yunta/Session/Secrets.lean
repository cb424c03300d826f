/-
  What redaction leaves of a secret.

  1. **Bytes** — `Redactor.bytes` is the byte-for-byte twin of `Redactor.text`.  A secret is found in
     the bytes of a text exactly where its characters stand, so the two agree (`utf8_text`).

  2. **Text** — a secret no occurrence of which can share a character with `[redacted]` is gone from
     every text (`text_lacks`).  One that can may come back with the marker that took another's place.

  3. **Values** — `Redactor.json` reaches every string, field name and scalar of a value at any depth
     (`texts_json`).

  4. **Main result** — `redaction_safe`: no secret survives where each holds one that cannot meet the
     marker, and a secret inside the marker survives in every text that holds one.
-/
import Yunta.Lib.OrdMap
import Yunta.Lib.Replace
import Yunta.Lib.Utf8
import Yunta.Session.Redactor

set_option linter.unusedVariables false

namespace Yunta

open Framing (Bytes utf8)
open Replace (replaceAll meets)

/-! ## Bytes -/

/-- Every occurrence of `needle` in `haystack` replaced; `needle` is never empty. -/
def replaceBytes (haystack needle with_ : Bytes) : Bytes := replaceAll needle with_ haystack

/-- `bytes` with every secret taken out, byte for byte. -/
def Redactor.bytes (r : Redactor) (bytes : Bytes) : Bytes :=
  r.values.foldl (fun bytes value => replaceBytes bytes (utf8 value) (utf8 redactedText)) bytes

/-- Past the characters an occurrence took, the walk goes on as from there. -/
theorem replaceFrom_skip (value : List Char) (skip : Nat) (text : List Char) :
    replaceFrom value skip text = replaceFrom value 0 (text.drop skip) := by
  induction text generalizing skip with
  | nil => cases skip <;> rfl
  | cons c text ih =>
    cases skip with
    | zero => rfl
    | succ skip =>
      rw [replaceFrom, ih, List.drop_succ_cons]

/-- **The walk replaces every occurrence.** -/
theorem replaceFrom_eq_replaceAll {value : List Char} (hvalue : value ≠ []) (text : List Char) :
    replaceFrom value 0 text = replaceAll value redactedText.toList text := by
  have hcons : ∀ (c : Char) (rest : List Char), ¬ value <+: c :: rest →
      replaceFrom value 0 (c :: rest) = c :: replaceFrom value 0 rest := by
    intro c rest h
    rw [replaceFrom, if_neg fun hprefix => h (List.isPrefixOf_iff_prefix.mp hprefix)]
  induction text using Replace.found_induction hvalue with
  | none text hin =>
    rw [Replace.replaceAll_of_none hin]
    induction text with
    | nil => rfl
    | cons c text ih =>
      have hnot : ¬ value <+: c :: text := fun h => hin h.isInfix
      rw [hcons c text hnot, ih fun h => hin (h.trans (List.suffix_cons c text).isInfix)]
  | found text before rest hfound ih =>
    rw [Replace.replaceAll_of_found hvalue hfound, ← ih]
    obtain ⟨hcut, hfirst⟩ := hfound
    subst hcut
    induction before with
    | nil =>
      obtain ⟨c, value, rfl⟩ := List.exists_cons_of_ne_nil hvalue
      rw [List.nil_append, List.cons_append, replaceFrom, if_pos, replaceFrom_skip]
      · simp
      · exact List.isPrefixOf_iff_prefix.mpr ⟨rest, by simp⟩
    | cons c before ihb =>
      have hnot : ¬ value <+: c :: (before ++ (value ++ rest)) := by
        rintro ⟨later, hlater⟩
        have hle := hfirst [] later hlater.symm
        simp at hle
      rw [List.cons_append, hcons _ _ hnot, List.cons_append, ihb]
      intro earlier later heq
      have hle := hfirst (c :: earlier) later (by rw [List.cons_append, heq, List.cons_append])
      simpa using hle

/-- **Redacting a text and redacting its bytes agree.** -/
theorem Redactor.utf8_text (r : Redactor) (text : String) :
    utf8 (r.text text) = r.bytes (utf8 text) := by
  have hfold : ∀ (values : List String) (text : String), "" ∉ values →
      utf8 (values.foldl (fun text value => .ofList (replaceFrom value.toList 0 text.toList)) text) =
        values.foldl (fun bytes value => replaceBytes bytes (utf8 value) (utf8 redactedText))
          (utf8 text) := by
    intro values
    induction values with
    | nil => exact fun text _ => rfl
    | cons value values ih =>
      intro text hvalues
      have hvalue : value.toList ≠ [] := fun hnil =>
        hvalues (by rw [String.toList_eq_nil_iff.mp hnil]; exact List.mem_cons_self)
      have hbytes : replaceBytes (utf8 text) (utf8 value) (utf8 redactedText) =
          utf8 (.ofList (replaceFrom value.toList 0 text.toList)) := by
        rw [replaceBytes, Utf8.utf8_eq_encode, Utf8.utf8_eq_encode, Utf8.utf8_eq_encode,
          Replace.replaceAll_encode hvalue, Utf8.utf8_eq_encode, String.toList_ofList,
          replaceFrom_eq_replaceAll hvalue]
      rw [List.foldl_cons, List.foldl_cons, hbytes]
      exact ih _ fun h => hvalues (List.mem_cons_of_mem _ h)
  exact hfold r.values text r.nonempty

/-! ## Text -/

/-- The text holds none of the declared secrets. -/
def Lacks (secrets : List String) (text : String) : Prop :=
  ∀ secret ∈ secrets, secret ≠ "" → ¬ secret.toList <:+: text.toList

/-- Every declared secret holds one, maybe itself, no occurrence of which can share a character with
    the marker. -/
def KeptApart (secrets : List String) : Prop :=
  ∀ secret ∈ secrets, secret ≠ "" → ∃ other ∈ secrets, other ≠ "" ∧
    other.toList <:+: secret.toList ∧ meets redactedText.toList other.toList = false

namespace Redactor

/-- Dropping a repetition drops no value. -/
theorem mem_destutter {values : List String} {value : String} (h : value ∈ values) :
    value ∈ values.destutter (· ≠ ·) := by
  have hfrom : ∀ (values : List String) (first : String), value ∈ first :: values →
      value ∈ values.destutter' (· ≠ ·) first := by
    intro values
    induction values with
    | nil => exact fun first h => h
    | cons next values ih =>
      intro first h
      rw [List.destutter'_cons]
      split
      · rcases List.mem_cons.mp h with rfl | h
        · exact List.mem_cons_self
        · exact List.mem_cons_of_mem _ (ih next h)
      · next hsame =>
        have hsame : first = next := not_not.mp hsame
        rcases List.mem_cons.mp h with rfl | h
        · exact ih _ List.mem_cons_self
        · exact ih first (hsame ▸ h)
  cases values with
  | nil => cases h
  | cons first values => exact hfrom values first h

theorem mem_ofValues {secrets : List String} {value : String} :
    value ∈ (ofValues secrets).values ↔ value ∈ secrets ∧ value ≠ "" := by
  have hsorted : value ∈ (secrets.filter (· ≠ "")).insertionSort (fun a b =>
      b.utf8ByteSize ≤ a.utf8ByteSize) ↔ value ∈ secrets ∧ value ≠ "" := by
    rw [List.mem_insertionSort]
    simp
  rw [← hsorted]
  exact ⟨fun h => (List.destutter_sublist _ _).subset h, mem_destutter⟩

/-- One value taken out of a text. -/
def takeOut (text : List Char) (value : String) : List Char :=
  replaceAll value.toList redactedText.toList text

/-- The characters of a redacted text: each value's occurrences give way in turn. -/
theorem toList_text (r : Redactor) (text : String) :
    (r.text text).toList = r.values.foldl takeOut text.toList := by
  have hfold : ∀ (values : List String) (text : String), "" ∉ values →
      (values.foldl (fun text value =>
        .ofList (replaceFrom value.toList 0 text.toList)) text).toList =
      values.foldl takeOut text.toList := by
    intro values
    induction values with
    | nil => exact fun text _ => rfl
    | cons value values ih =>
      intro text hvalues
      have hvalue : value.toList ≠ [] := fun hnil =>
        hvalues (by rw [String.toList_eq_nil_iff.mp hnil]; exact List.mem_cons_self)
      rw [List.foldl_cons, List.foldl_cons, ih _ fun h => hvalues (List.mem_cons_of_mem _ h),
        String.toList_ofList, replaceFrom_eq_replaceAll hvalue]
      rfl
  exact hfold r.values text r.nonempty

section
variable {r : Redactor} {value : String}

theorem toList_ne_nil (h : value ∈ r.values) : value.toList ≠ [] :=
  fun hnil => r.nonempty (String.toList_eq_nil_iff.mp hnil ▸ h)

/-- A value that does not meet the marker stays away once it is. -/
theorem foldl_lacks (hmeets : meets redactedText.toList value.toList = false)
    (values : List String) {text : List Char} (h : ¬ value.toList <:+: text) :
    ¬ value.toList <:+: values.foldl takeOut text := by
  induction values generalizing text with
  | nil => exact h
  | cons other values ih => exact ih (Replace.not_infix_replaceAll hmeets h)

/-- **A value that does not meet the marker is gone** from every redacted text. -/
theorem text_lacks (h : value ∈ r.values)
    (hmeets : meets redactedText.toList value.toList = false) (text : String) :
    ¬ value.toList <:+: (r.text text).toList := by
  rw [toList_text]
  obtain ⟨before, after, hvalues⟩ := List.append_of_mem h
  rw [hvalues, List.foldl_append, List.foldl_cons]
  exact foldl_lacks hmeets after (Replace.not_infix_replaced (toList_ne_nil h) hmeets _)

/-- A text that holds none of the values is as it was. -/
theorem toList_text_of_none {text : String}
    (h : ∀ value ∈ r.values, ¬ value.toList <:+: text.toList) : r.text text = text := by
  have hsame : (r.text text).toList = text.toList := by
    rw [toList_text]
    refine List.foldlRecOn (motive := fun now => now = text.toList) r.values _ rfl ?_
    rintro now rfl value hvalue
    exact Replace.replaceAll_of_none (h value hvalue)
  rw [← String.ofList_toList (s := r.text text), hsame, String.ofList_toList]

/-- **A text that held a value holds the marker.** -/
theorem marker_infix_text (h : value ∈ r.values) {text : String}
    (hin : value.toList <:+: text.toList) :
    redactedText.toList <:+: (r.text text).toList := by
  have hpass : ∀ values : List String, (∀ v ∈ values, v ∈ r.values) → ∀ now : List Char,
      redactedText.toList <:+: now ∨ (∃ v ∈ values, v.toList <:+: now) →
      redactedText.toList <:+: values.foldl takeOut now := by
    intro values hvalues
    induction values with
    | nil =>
      rintro now (hmarker | ⟨v, hv, -⟩)
      · exact hmarker
      · cases hv
    | cons v values ih =>
      intro now hnow
      have hne : v.toList ≠ [] := toList_ne_nil (hvalues v List.mem_cons_self)
      refine ih (fun w hw => hvalues w (List.mem_cons_of_mem v hw)) (takeOut now v) ?_
      by_cases hv : v.toList <:+: now
      · exact .inl (Replace.marker_infix_replaceAll hne hv)
      · -- this value changes nothing, and what stood in the text stands in it still
        rw [takeOut, Replace.replaceAll_of_none hv]
        refine hnow.imp id fun ⟨w, hw, hin⟩ => ⟨w, ?_, hin⟩
        rcases List.mem_cons.mp hw with rfl | hw
        · exact absurd hin hv
        · exact hw
  rw [toList_text]
  exact hpass r.values (fun v hv => hv) text.toList (.inr ⟨value, h, hin⟩)

end

/-- **No declared secret survives** in the text, where the secrets are covered or the text holds
    none. -/
theorem text_safe {secrets : List String} {text : String}
    (h : KeptApart secrets ∨ Lacks secrets text) :
    Lacks secrets ((ofValues secrets).text text) := by
  intro secret hsecret hne hin
  rcases h with hcovered | hlacks
  · obtain ⟨other, hother, hotherNe, hinside, hmeets⟩ := hcovered secret hsecret hne
    exact text_lacks (mem_ofValues.mpr ⟨hother, hotherNe⟩) hmeets text (hinside.trans hin)
  · rw [toList_text_of_none fun value hvalue =>
      hlacks value (mem_ofValues.mp hvalue).1 (mem_ofValues.mp hvalue).2] at hin
    exact hlacks secret hsecret hne hin

end Redactor

/-! ## Values -/

/-- A JSON value; a number is told by the text it is written as. -/
inductive JsonTree where
  | null
  | bool (b : Bool)
  | number (text : String)
  | string (text : String)
  | array (items : List JsonTree)
  | object (fields : List (String × JsonTree))

namespace JsonTree

mutual

/-- Whether two values are the same. -/
def same : JsonTree → JsonTree → Bool
  | .null, .null => true
  | .bool a, .bool b => a == b
  | .number a, .number b => a == b
  | .string a, .string b => a == b
  | .array a, .array b => sameItems a b
  | .object a, .object b => sameFields a b
  | _, _ => false

def sameItems : List JsonTree → List JsonTree → Bool
  | [], [] => true
  | a :: as, b :: bs => same a b && sameItems as bs
  | _, _ => false

def sameFields : List (String × JsonTree) → List (String × JsonTree) → Bool
  | [], [] => true
  | (name, a) :: as, (other, b) :: bs => name == other && same a b && sameFields as bs
  | _, _ => false

end

mutual

/-- Every text a value writes, at any depth: its strings, its field names and its scalars. -/
def texts : JsonTree → List String
  | .null => []
  | .bool b => [toString b]
  | .number text | .string text => [text]
  | .array items => itemsTexts items
  | .object fields => fieldsTexts fields

def itemsTexts : List JsonTree → List String
  | [] => []
  | item :: items => texts item ++ itemsTexts items

def fieldsTexts : List (String × JsonTree) → List String
  | [] => []
  | (name, field) :: fields => name :: (texts field ++ fieldsTexts fields)

end

/-- What a map makes of fields as they come: the last one under a name, in the order of the names. -/
def collect (fields : List (String × JsonTree)) : List (String × JsonTree) :=
  (Std.ExtTreeMap.ofList fields compare : OrdMap String JsonTree).toList

end JsonTree

namespace Redactor

/-- A scalar, kept where its text is. -/
def scalar (r : Redactor) (value : JsonTree) (text : String) : JsonTree :=
  let kept := r.text text
  if kept = text then value else .string kept

mutual

/-- A value with every secret replaced wherever a string carries one, in a field name as well as a
    field value; a scalar is compared by its text. -/
def json (r : Redactor) : JsonTree → JsonTree
  | .string text => .string (r.text text)
  | .number text => r.scalar (.number text) text
  | .bool b => r.scalar (.bool b) (toString b)
  | .array items => .array (jsonItems r items)
  | .object fields => .object (JsonTree.collect (jsonFields r fields))
  | .null => .null

def jsonItems (r : Redactor) : List JsonTree → List JsonTree
  | [] => []
  | item :: items => json r item :: jsonItems r items

def jsonFields (r : Redactor) : List (String × JsonTree) → List (String × JsonTree)
  | [] => []
  | (name, field) :: fields => (r.text name, json r field) :: jsonFields r fields

end

end Redactor

/-- How the payloads of a kind are written as values and read from them, and the texts each holds:
    none that is not part of what is written, or of what is read. -/
structure Serde (P : Type) where
  toValue : P → Option JsonTree
  fromValue : JsonTree → Option P
  texts : P → List String
  written : ∀ p v, toValue p = some v → ∀ t ∈ texts p, ∃ s ∈ v.texts, t.toList <:+: s.toList
  read : ∀ v p, fromValue v = some p → ∀ t ∈ texts p, ∃ s ∈ v.texts, t.toList <:+: s.toList

/-- A payload with every secret taken out, as the same typed payload: itself where nothing needed
    taking out, and none where it does not read back. -/
def Redactor.typed {P : Type} (r : Redactor) (serde : Serde P) (payload : P) : Option P :=
  if r.values = [] then some payload
  else
    match serde.toValue payload with
    | none => none
    | some value =>
      let redacted := r.json value
      if redacted.same value then some payload else serde.fromValue redacted

namespace JsonTree

/-- What holds of a value once it holds of its parts holds of every value. -/
theorem induct {P : JsonTree → Prop} (null : P .null) (bool : ∀ b, P (.bool b))
    (number : ∀ text, P (.number text)) (string : ∀ text, P (.string text))
    (array : ∀ items, (∀ v ∈ items, P v) → P (.array items))
    (object : ∀ fields, (∀ e ∈ fields, P e.2) → P (.object fields)) (v : JsonTree) : P v := by
  refine @JsonTree.rec P (fun items => ∀ v ∈ items, P v) (fun fields => ∀ e ∈ fields, P e.2)
    (fun e => P e.2) null bool number string array object ?_ ?_ ?_ ?_ ?_ v
  · intro v hv
    cases hv
  · intro v items hv hitems w hw
    rcases List.mem_cons.mp hw with rfl | hw
    · exact hv
    · exact hitems w hw
  · intro e he
    cases he
  · intro e fields he hfields f hf
    rcases List.mem_cons.mp hf with rfl | hf
    · exact he
    · exact hfields f hf
  · intro name v hv
    exact hv

theorem mem_itemsTexts {items : List JsonTree} {t : String} :
    t ∈ itemsTexts items ↔ ∃ item ∈ items, t ∈ item.texts := by
  induction items with
  | nil => simp [itemsTexts]
  | cons item items ih => simp [itemsTexts, ih]

theorem mem_fieldsTexts {fields : List (String × JsonTree)} {t : String} :
    t ∈ fieldsTexts fields ↔ ∃ field ∈ fields, t = field.1 ∨ t ∈ field.2.texts := by
  induction fields with
  | nil => simp [fieldsTexts]
  | cons field fields ih => simp [fieldsTexts, ih, or_assoc]

theorem mem_collect {fields : List (String × JsonTree)} {e : String × JsonTree} (h : e ∈ collect fields) :
    e ∈ fields :=
  OrdMap.mem_of_getElem?_ofList (Std.ExtTreeMap.mem_toList_iff_getElem?_eq_some.mp h)

theorem sameItems_eq {items : List JsonTree} (h : ∀ a ∈ items, ∀ b, same a b = true → a = b)
    {other : List JsonTree} (hsame : sameItems items other = true) : items = other := by
  induction items generalizing other with
  | nil =>
    cases other with
    | nil => rfl
    | cons b other => simp [sameItems] at hsame
  | cons a items ih =>
    cases other with
    | nil => simp [sameItems] at hsame
    | cons b other =>
      simp only [sameItems, Bool.and_eq_true] at hsame
      rw [h a List.mem_cons_self b hsame.1,
        ih (fun a ha => h a (List.mem_cons_of_mem _ ha)) hsame.2]

theorem sameFields_eq {fields : List (String × JsonTree)}
    (h : ∀ e ∈ fields, ∀ b, same e.2 b = true → e.2 = b) {other : List (String × JsonTree)}
    (hsame : sameFields fields other = true) : fields = other := by
  induction fields generalizing other with
  | nil =>
    cases other with
    | nil => rfl
    | cons b other => simp [sameFields] at hsame
  | cons e fields ih =>
    cases other with
    | nil => simp [sameFields] at hsame
    | cons b other =>
      simp only [sameFields, Bool.and_eq_true, beq_iff_eq] at hsame
      obtain ⟨⟨hname, hfield⟩, hrest⟩ := hsame
      have hvalue := h e List.mem_cons_self b.2 hfield
      rw [ih (fun e he => h e (List.mem_cons_of_mem _ he)) hrest, Prod.ext hname hvalue]

theorem same_eq {a b : JsonTree} (h : same a b = true) : a = b := by
  induction a using induct generalizing b with
  | null => cases b <;> simp_all [same]
  | bool a => cases b <;> simp_all [same]
  | number a => cases b <;> simp_all [same]
  | string a => cases b <;> simp_all [same]
  | array items ih =>
    cases b with
    | array other => rw [sameItems_eq (fun a ha b hb => ih a ha hb) (by simpa [same] using h)]
    | _ => simp [same] at h
  | object fields ih =>
    cases b with
    | object other => rw [sameFields_eq (fun e he b hb => ih e he hb) (by simpa [same] using h)]
    | _ => simp [same] at h

end JsonTree

namespace Redactor

theorem texts_scalar {r : Redactor} {value : JsonTree} {text t : String} (hvalue : value.texts = [text])
    (h : t ∈ (r.scalar value text).texts) : t = r.text text := by
  rw [scalar] at h
  split at h
  · next hkept =>
    rw [hvalue] at h
    rw [List.mem_singleton.mp h, hkept]
  · exact List.mem_singleton.mp h

theorem jsonItems_eq (r : Redactor) (items : List JsonTree) :
    r.jsonItems items = items.map r.json := by
  induction items with
  | nil => rfl
  | cons item items ih => rw [jsonItems, ih, List.map_cons]

theorem jsonFields_eq (r : Redactor) (fields : List (String × JsonTree)) :
    r.jsonFields fields = fields.map fun field => (r.text field.1, r.json field.2) := by
  induction fields with
  | nil => rfl
  | cons field fields ih => rw [jsonFields, ih, List.map_cons]

/-- **Every text of a redacted value is a redacted text of the value.** -/
theorem texts_json (r : Redactor) (v : JsonTree) :
    ∀ t ∈ (r.json v).texts, ∃ s ∈ v.texts, t = r.text s := by
  induction v using JsonTree.induct with
  | null =>
    intro t ht
    cases ht
  | bool b =>
    intro t ht
    exact ⟨_, List.mem_singleton_self _, texts_scalar rfl ht⟩
  | number text =>
    intro t ht
    exact ⟨_, List.mem_singleton_self _, texts_scalar rfl ht⟩
  | string text =>
    intro t ht
    exact ⟨text, List.mem_singleton_self _, List.mem_singleton.mp ht⟩
  | array items ih =>
    intro t ht
    rw [json, jsonItems_eq] at ht
    obtain ⟨redacted, hmem, ht⟩ := JsonTree.mem_itemsTexts.mp ht
    obtain ⟨item, hitem, rfl⟩ := List.mem_map.mp hmem
    obtain ⟨s, hs, heq⟩ := ih item hitem t ht
    exact ⟨s, JsonTree.mem_itemsTexts.mpr ⟨item, hitem, hs⟩, heq⟩
  | object fields ih =>
    intro t ht
    rw [json, jsonFields_eq] at ht
    obtain ⟨redacted, hmem, ht⟩ := JsonTree.mem_fieldsTexts.mp ht
    obtain ⟨field, hfield, rfl⟩ := List.mem_map.mp (JsonTree.mem_collect hmem)
    rcases ht with rfl | ht
    · exact ⟨field.1, JsonTree.mem_fieldsTexts.mpr ⟨field, hfield, .inl rfl⟩, rfl⟩
    · obtain ⟨s, hs, heq⟩ := ih field hfield t ht
      exact ⟨s, JsonTree.mem_fieldsTexts.mpr ⟨field, hfield, .inr hs⟩, heq⟩

end Redactor

/-! ## What survives -/

theorem lacks_of_infix {secrets : List String} {part whole : String}
    (hpart : part.toList <:+: whole.toList) (h : Lacks secrets whole) : Lacks secrets part :=
  fun secret hsecret hne hin => h secret hsecret hne (hin.trans hpart)

/-- **No secret survives in a payload** that is written, where the secrets are covered or the payload
    writes none. -/
theorem Redactor.typed_safe {P : Type} (serde : Serde P) {secrets : List String} {payload kept : P}
    (h : KeptApart secrets ∨ ∀ v, serde.toValue payload = some v → ∀ t ∈ v.texts, Lacks secrets t)
    (hkept : (ofValues secrets).typed serde payload = some kept) :
    ∀ t ∈ serde.texts kept, Lacks secrets t := by
  intro t ht
  rw [Redactor.typed] at hkept
  split at hkept
  · next hnone =>
    intro secret hsecret hne
    have hmem := mem_ofValues.mpr ⟨hsecret, hne⟩
    rw [hnone] at hmem
    cases hmem
  · cases hvalue : serde.toValue payload with
    | none => rw [hvalue] at hkept; cases hkept
    | some value =>
      rw [hvalue] at hkept
      have hsafe : ∀ s ∈ ((ofValues secrets).json value).texts, Lacks secrets s := by
        intro s hs
        obtain ⟨original, horiginal, rfl⟩ := texts_json _ _ s hs
        exact text_safe (h.imp id fun hlacks => hlacks value hvalue original horiginal)
      replace hkept : (if ((ofValues secrets).json value).same value then some payload
        else serde.fromValue ((ofValues secrets).json value)) = some kept := hkept
      split at hkept
      · next hsame =>
        rw [← Option.some.inj hkept] at ht
        obtain ⟨s, hs, hpart⟩ := serde.written payload value hvalue t ht
        rw [← JsonTree.same_eq hsame] at hs
        exact lacks_of_infix hpart (hsafe s hs)
      · obtain ⟨s, hs, hpart⟩ := serde.read _ kept hkept t ht
        exact lacks_of_infix hpart (hsafe s hs)

/-- **No secret survives** where each declared one holds one that cannot meet the marker, or none
    stands in what is redacted; and with a secret inside the marker, that is the only way. -/
theorem redaction_safe {P : Type} (serde : Serde P) (secrets : List String) :
    (∀ text, KeptApart secrets ∨ Lacks secrets text →
      Lacks secrets ((Redactor.ofValues secrets).text text)) ∧
    (∀ payload kept, (KeptApart secrets ∨
        ∀ v, serde.toValue payload = some v → ∀ t ∈ v.texts, Lacks secrets t) →
      (Redactor.ofValues secrets).typed serde payload = some kept →
        ∀ t ∈ serde.texts kept, Lacks secrets t) ∧
    ∀ secret ∈ secrets, secret ≠ "" → secret.toList <:+: redactedText.toList →
      ∀ text, Lacks secrets ((Redactor.ofValues secrets).text text) → Lacks secrets text := by
  refine ⟨fun text h => Redactor.text_safe h,
    fun payload kept h hkept => Redactor.typed_safe serde h hkept,
    fun secret hsecret hne hinside text h other hother hotherNe hin => ?_⟩
  have hmarker := Redactor.marker_infix_text (Redactor.mem_ofValues.mpr ⟨hother, hotherNe⟩) hin
  exact h secret hsecret hne (hinside.trans hmarker)

/-- The payload of `pull_request_opened`. -/
structure PullRequestOpened where
  url : String
  number : Nat
  head : String
  base : String
  deriving DecidableEq

namespace PullRequestOpened

def stringOf (fields : List (String × JsonTree)) (name : String) : Option String :=
  match fields.find? (·.1 = name) with
  | some (_, .string text) => some text
  | _ => none

def numberOf (fields : List (String × JsonTree)) (name : String) : Option Nat :=
  match fields.find? (·.1 = name) with
  | some (_, .number text) =>
    if text.toList.all Char.isDigit then
      some (text.toList.foldl (fun n c => 10 * n + (c.toNat - 48)) 0)
    else none
  | _ => none

def toValue (payload : PullRequestOpened) : JsonTree :=
  .object [("base", .string payload.base), ("head", .string payload.head),
    ("kind", .string "pull_request_opened"), ("number", .number (toString payload.number)),
    ("url", .string payload.url)]

def fromValue : JsonTree → Option PullRequestOpened
  | .object fields => do
    guard (stringOf fields "kind" = some "pull_request_opened")
    let url ← stringOf fields "url"
    let number ← numberOf fields "number"
    let head ← stringOf fields "head"
    let base ← stringOf fields "base"
    some ⟨url, number, head, base⟩
  | _ => none

theorem stringOf_mem {fields : List (String × JsonTree)} {name text : String}
    (h : stringOf fields name = some text) : text ∈ (JsonTree.object fields).texts := by
  rw [stringOf] at h
  split at h
  · next field hfind =>
    obtain rfl := Option.some.inj h
    exact JsonTree.mem_fieldsTexts.mpr
      ⟨_, List.mem_of_find?_eq_some hfind, .inr (List.mem_singleton_self _)⟩
  · cases h

/-- How the payload is written, and read field by field. -/
def serde : Serde PullRequestOpened where
  toValue payload := some payload.toValue
  fromValue := fromValue
  texts payload := [payload.url, payload.head, payload.base]
  written := by
    rintro payload v hv t ht
    obtain rfl := Option.some.inj hv
    refine ⟨t, ?_, List.infix_rfl⟩
    simp only [List.mem_cons, List.not_mem_nil, or_false] at ht
    rcases ht with rfl | rfl | rfl <;> simp [toValue, JsonTree.texts, JsonTree.fieldsTexts]
  read := by
    rintro v payload hv t ht
    cases v with
    | object fields =>
      simp only [fromValue, Option.bind_eq_bind, Option.bind_eq_some_iff, Option.some.injEq] at hv
      obtain ⟨-, -, url, hurl, number, -, head, hhead, base, hbase, rfl⟩ := hv
      refine ⟨t, ?_, List.infix_rfl⟩
      simp only [List.mem_cons, List.not_mem_nil, or_false] at ht
      rcases ht with rfl | rfl | rfl
      · exact stringOf_mem hurl
      · exact stringOf_mem hhead
      · exact stringOf_mem hbase
    | _ => cases hv

end PullRequestOpened

theorem redaction_safe_token :
    Lacks ["s3cr3t"] ((Redactor.ofValues ["s3cr3t"]).text "token s3cr3t") ∧
    (∀ kept, (Redactor.ofValues ["s3cr3t"]).typed PullRequestOpened.serde
        ⟨"https://s3cr3t@forge", 7, "work", "main"⟩ = some kept → Lacks ["s3cr3t"] kept.url) ∧
    (Redactor.ofValues ["s3cr3t"]).typed PullRequestOpened.serde
        ⟨"https://s3cr3t@forge", 7, "work", "main"⟩ =
      some ⟨"https://[redacted]@forge", 7, "work", "main"⟩ ∧
    (Lacks ["redact"] ((Redactor.ofValues ["redact"]).text "plain") → Lacks ["redact"] "plain") := by
  have hcovered : KeptApart ["s3cr3t"] := by
    intro secret hsecret hne
    rw [List.mem_singleton.mp hsecret]
    exact ⟨"s3cr3t", List.mem_singleton_self _, by decide, List.infix_rfl, by decide +kernel⟩
  obtain ⟨htext, htyped, -⟩ := redaction_safe PullRequestOpened.serde ["s3cr3t"]
  refine ⟨htext _ (.inl hcovered), fun kept hkept => ?_, by decide +kernel, ?_⟩
  · exact htyped _ kept (.inl hcovered) hkept kept.url List.mem_cons_self
  · exact (redaction_safe PullRequestOpened.serde ["redact"]).2.2 "redact"
      (List.mem_singleton_self _) (by decide) (by decide +kernel) "plain"

/-- **A secret comes back with the marker**: inside it, or made of it and the text beside it. -/
theorem not_redaction_safe :
    ¬ Lacks ["redact"] ((Redactor.ofValues ["redact"]).text "redact") ∧
    ¬ Lacks ["abcd", "cted]xy"] ((Redactor.ofValues ["abcd", "cted]xy"]).text "abcdxy") ∧
    ∃ kept, (Redactor.ofValues ["redact"]).typed PullRequestOpened.serde
      ⟨"https://redact@forge", 7, "work", "main"⟩ = some kept ∧ ¬ Lacks ["redact"] kept.url := by
  refine ⟨fun h => ?_, fun h => ?_, ⟨"https://[redacted]@forge", 7, "work", "main"⟩,
    by decide +kernel, fun h => ?_⟩
  · exact h "redact" (by decide) (by decide) (by decide +kernel)
  · exact h "cted]xy" (by decide) (by decide) (by decide +kernel)
  · exact h "redact" (by decide) (by decide) (by decide +kernel)

end Yunta
