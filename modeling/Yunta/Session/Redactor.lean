/-
  What a run keeps out of its log, and the form a refused stop is written in.

  1. **Text** — every secret's value in a text gives way to `[redacted]`, the longest first.  A
     text in which one did shows a bracket, so a text without one is as it was (`text_eq_self`).

  2. **Payloads** — a payload is redacted as the object it serializes to, and is written only when
     what is left reads back as a payload of its kind (`Redactor.payload`).

  3. **Refused stops** — one that is written names the state it was refused at
     (`payload_state`), and its session by the name redaction leaves of it (`payload_session`).
-/
import Yunta.Events.Payloads
import Mathlib.Data.List.Destutter
import Mathlib.Data.List.Sort

set_option linter.unusedVariables false

namespace Yunta

/-! ## Text -/

/-- What stands in the log where a secret was. -/
def redactedText : String := "[redacted]"

/-- A text with each `value` in it replaced, past the `skip` characters the last one took. -/
def replaceFrom (value : List Char) : Nat → List Char → List Char
  | _, [] => []
  | skip + 1, _ :: rest => replaceFrom value skip rest
  | 0, c :: rest =>
    if value.isPrefixOf (c :: rest) then
      redactedText.toList ++ replaceFrom value (value.length - 1) rest
    else c :: replaceFrom value 0 rest

/-- Every secret's value, for keeping them out of the log: none of them empty. -/
structure Redactor where
  values : List String
  nonempty : "" ∉ values

namespace Redactor

/-- The redactor of the values a caller declares secret: longest first, an empty one dropped. -/
def ofValues (values : List String) : Redactor where
  values := ((values.filter (· ≠ "")).insertionSort fun a b =>
    b.utf8ByteSize ≤ a.utf8ByteSize).destutter (· ≠ ·)
  nonempty := by
    intro h
    have hmem := (List.destutter_sublist _ _).subset h
    rw [List.mem_insertionSort] at hmem
    simp at hmem

/-- `text` with every secret value replaced. -/
def text (r : Redactor) (text : String) : String :=
  r.values.foldl (fun text value => .ofList (replaceFrom value.toList 0 text.toList)) text

end Redactor

/-- A text without a bracket after a value is replaced held none to replace. -/
theorem replaceFrom_eq_self {value text : List Char} (h : '[' ∉ replaceFrom value 0 text) :
    replaceFrom value 0 text = text := by
  induction text with
  | nil => rfl
  | cons c rest ih =>
    rw [replaceFrom] at h ⊢
    split at h
    · exact absurd (List.mem_append_left _ (by decide +kernel)) h
    next hprefix =>
    rw [if_neg hprefix, ih fun hmem => h (List.mem_cons_of_mem c hmem)]

/-- **A text without a bracket after redaction** is as it was. -/
theorem Redactor.text_eq_self {r : Redactor} {text : String} (h : '[' ∉ (r.text text).toList) :
    r.text text = text := by
  have hfold : ∀ (values : List String) (text : String),
      '[' ∉ (values.foldl (fun text value =>
        .ofList (replaceFrom value.toList 0 text.toList)) text).toList →
      values.foldl (fun text value => .ofList (replaceFrom value.toList 0 text.toList)) text =
        text := by
    intro values
    induction values with
    | nil => exact fun text _ => rfl
    | cons value values ih =>
      intro text hnone
      rw [List.foldl_cons] at hnone ⊢
      have hrest := ih _ hnone
      rw [hrest] at hnone ⊢
      rw [String.toList_ofList] at hnone
      rw [replaceFrom_eq_self hnone, String.ofList_toList]
  exact hfold r.values text h

/-! ## A refused stop as the log writes it -/

/-- One reason a session's work would not close. -/
inductive StopRefusal where
  | criteriaRed | outsideScope | artifactMissing | artifactRefused
  deriving DecidableEq

namespace StopRefusal

/-- The word the log and a reader call it by. -/
def asStr : StopRefusal → String
  | criteriaRed => "criteria_red"
  | outsideScope => "outside_scope"
  | artifactMissing => "artifact_missing"
  | artifactRefused => "artifact_refused"

def ofStr (word : String) : Option StopRefusal :=
  [criteriaRed, outsideScope, artifactMissing, artifactRefused].find? fun why => why.asStr = word

end StopRefusal

/-- A session that asked to stop with work its close would not take, told why and sent back. -/
structure StopRefused where
  sessionId : SessionId
  state : ContentHash
  why : List StopRefusal
  taskId : Option TaskId
  deriving DecidableEq

/-- What a field of a payload's object holds: a text, or a list of words. -/
inductive Field where
  | text (text : String)
  | words (words : List String)
  deriving DecidableEq

/-- The object a payload serializes to, its kind among its fields. -/
abbrev Fields := List (String × Field)

/-- 64 lowercase hex digits. -/
def isContentHash (text : String) : Bool :=
  text.toList.length = 64 &&
    text.toList.all fun c => ('0' ≤ c && c ≤ '9') || ('a' ≤ c && c ≤ 'f')

/-- Not empty and without control characters. -/
def isOpaque (text : String) : Bool :=
  !text.toList.isEmpty && text.toList.all fun c => 0x20 ≤ c.toNat && c.toNat ≠ 0x7F

/-- A letter followed by letters, digits, `_` or `-`. -/
def isName (text : String) : Bool :=
  match text.toList with
  | [] => false
  | c :: rest => c.isAlpha && rest.all fun c => c.isAlphanum || c = '_' || c = '-'

namespace StopRefused

def fields (p : StopRefused) : Fields :=
  [("kind", .text "stop_refused"), ("session_id", .text p.sessionId), ("state", .text p.state),
    ("why", .words (p.why.map StopRefusal.asStr))] ++
      (p.taskId.map fun task => ("task_id", .text task)).toList

/-- The text a field of `fields` holds. -/
def textOf (fields : Fields) (name : String) : Option String :=
  match fields.lookup name with
  | some (.text text) => some text
  | _ => none

def whyOf (fields : Fields) : Option (List StopRefusal) :=
  match fields.lookup "why" with
  | some (.words words) => words.mapM StopRefusal.ofStr
  | _ => none

/-- The task `fields` name, which may be absent. -/
def taskOf (fields : Fields) : Option (Option TaskId) :=
  match fields.lookup "task_id" with
  | none => some none
  | some (.text task) => if isName task then some (some task) else none
  | some (.words _) => none

/-- The payload `fields` read as: each field by its name, by the rule its type has. -/
def ofFields (fields : Fields) : Option StopRefused := do
  guard (textOf fields "kind" = some "stop_refused")
  let sessionId ← (textOf fields "session_id").filter isOpaque
  let state ← (textOf fields "state").filter isContentHash
  let why ← whyOf fields
  let taskId ← taskOf fields
  some ⟨sessionId, state, why, taskId⟩

end StopRefused

namespace Redactor

def field (r : Redactor) : Field → Field
  | .text text => .text (r.text text)
  | .words words => .words (words.map r.text)

/-- An object with every secret taken out, of a field's name as of what it holds. -/
def object (r : Redactor) (fields : Fields) : Fields :=
  fields.map fun entry => (r.text entry.1, r.field entry.2)

/-- **`Redactor::payload`**: the payload with every secret taken out, or none when that does not
    read back. -/
def payload (r : Redactor) (p : StopRefused) : Option StopRefused :=
  if r.values = [] then some p
  else
    let redacted := r.object p.fields
    if redacted = p.fields then some p else StopRefused.ofFields redacted

/-- A field of a redacted object under a name without a bracket is that field's. -/
theorem lookup_object {r : Redactor} {fields : Fields} {name : String} {held : Field}
    (hname : '[' ∉ name.toList) (h : (r.object fields).lookup name = some held) :
    ∃ field, (name, field) ∈ fields ∧ held = r.field field := by
  have hmem : (name, held) ∈ r.object fields := by
    generalize r.object fields = redacted at h
    induction redacted with
    | nil => cases h
    | cons entry rest ih =>
      rw [List.lookup_cons] at h
      split at h
      · next hname =>
        obtain rfl := Option.some.inj h
        rw [eq_of_beq hname]
        exact List.mem_cons_self
      · exact List.mem_cons_of_mem _ (ih h)
  obtain ⟨entry, hentry, heq⟩ := List.mem_map.mp hmem
  obtain ⟨hkey, hfield⟩ := Prod.mk.inj heq
  have hsame : r.text entry.1 = entry.1 := text_eq_self (hkey ▸ hname)
  refine ⟨entry.2, ?_, hfield.symm⟩
  rw [← hkey, hsame]
  exact hentry

theorem text_of_object {r : Redactor} {fields : Fields} {name text : String}
    (hname : '[' ∉ name.toList) (h : StopRefused.textOf (r.object fields) name = some text) :
    ∃ held, (name, Field.text held) ∈ fields ∧ text = r.text held := by
  unfold StopRefused.textOf at h
  split at h
  · next held hlookup =>
    obtain rfl := Option.some.inj h
    obtain ⟨field, hmem, heq⟩ := lookup_object hname hlookup
    cases field with
    | text held => exact ⟨held, hmem, Field.text.inj heq⟩
    | words words => cases heq
  · cases h

/-- What a payload written says its session and its state are. -/
theorem payload_fields {r : Redactor} {p q : StopRefused} (h : r.payload p = some q) :
    q = p ∨ q.sessionId = r.text p.sessionId ∧ q.state = r.text p.state ∧
      isContentHash q.state = true := by
  unfold payload at h
  split at h
  · exact Or.inl (Option.some.inj h).symm
  simp only at h
  split at h
  · exact Or.inl (Option.some.inj h).symm
  refine Or.inr ?_
  unfold StopRefused.ofFields at h
  simp only [Option.bind_eq_bind, Option.bind_eq_some_iff, Option.filter_eq_some_iff] at h
  obtain ⟨-, -, session, ⟨hsession, -⟩, state, ⟨hstate, hhash⟩, why, -, task, -, hq⟩ := h
  obtain rfl := Option.some.inj hq
  obtain ⟨held, hmem, rfl⟩ := text_of_object (by decide +kernel) hsession
  obtain ⟨held', hmem', rfl⟩ := text_of_object (by decide +kernel) hstate
  have hown : held = p.sessionId := by
    cases htask : p.taskId <;> simpa [StopRefused.fields, htask] using hmem
  have hown' : held' = p.state := by
    cases htask : p.taskId <;> simpa [StopRefused.fields, htask] using hmem'
  exact ⟨by rw [hown], by rw [hown'], hhash⟩

theorem notMem_of_isContentHash {text : String} (h : isContentHash text = true) :
    '[' ∉ text.toList := by
  intro hmem
  have hall := List.all_eq_true.mp (Bool.and_eq_true_iff.mp h).2 '[' hmem
  exact absurd hall (by decide)

/-- **A payload written names the state** it was refused at. -/
theorem payload_state {r : Redactor} {p q : StopRefused} (h : r.payload p = some q) :
    q.state = p.state := by
  rcases payload_fields h with rfl | ⟨-, hstate, hhash⟩
  · rfl
  · rw [hstate] at hhash ⊢
    exact text_eq_self (notMem_of_isContentHash hhash)

/-- **It names its session** where redaction leaves the session's id as it is. -/
theorem payload_session {r : Redactor} {p q : StopRefused} (h : r.payload p = some q)
    (hsame : r.text p.sessionId = p.sessionId) : q.sessionId = p.sessionId := by
  rcases payload_fields h with rfl | ⟨hsession, -, -⟩
  · rfl
  · rw [hsession, hsame]

end Redactor

end Yunta
