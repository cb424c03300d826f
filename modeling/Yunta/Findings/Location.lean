/-
  Where a finding is, and whether its one spelling says so.

  1. **Paths** — a path is its bytes, and two paths are equal where their components are.
     `RelativePath` carries that it stays inside its root: `RelativePath.of` composes one from any
     parts, and text that would leave it does not read.

  2. **Locations** — `display` writes root, path and range in one text with a colon between them,
     and `fromStr` takes that text apart again.  Nothing is escaped.

  3. **Main result** — `location_read_back`: what was read is written and read back as it is; what
     was composed is, exactly where its own names do not read as a root or a range.
-/
import Mathlib.Algebra.Group.Nat.Defs
import Yunta.Lib.Str
import Yunta.Lib.Utf8
import Mathlib.Data.Set.List

set_option linter.unusedVariables false

namespace Yunta.Findings

open Framing (Bytes)
open Str (splitOnce rsplitOnce fromStrRadix)
open Utf8 (chars code)

/-! ## Paths -/

inductive Component where
  | rootDir | curDir | parentDir
  | normal (name : Bytes)
  deriving DecidableEq

/-- The byte of `/`. -/
def slash : UInt8 := 47

/-- A part of a path that is no leading one: an empty part and a `.` are passed over. -/
def partOf (part : Bytes) : Option Component :=
  if part = [] ∨ part = [46] then none
  else if part = [46, 46] then some .parentDir
  else some (.normal part)

/-- `Path::components`. -/
def components (path : Bytes) : List Component :=
  match path.splitOn slash with
  | [] | [[]] => []
  | [] :: parts => .rootDir :: parts.filterMap partOf
  | part :: parts =>
    (if part = [46] then [.curDir] else (partOf part).toList) ++ parts.filterMap partOf

/-- Whether a path stays inside its root: it is relative and never climbs. -/
def inside (path : Bytes) : Bool :=
  path.head? ≠ some slash && !(components path).contains .parentDir

/-- A path inside its root: relative, and never climbing out of it. -/
structure RelativePath where
  path : Bytes
  within : inside path = true
  deriving DecidableEq

/-- Bytes that name something: a part of a path that is a component of its own, and no step up. -/
structure Named (name : Bytes) : Prop where
  one : slash ∉ name
  nonempty : name ≠ []
  notDot : name ≠ [46]
  notUp : name ≠ [46, 46]

theorem partOf_named {name : Bytes} (h : Named name) : partOf name = some (.normal name) := by
  unfold partOf
  rw [if_neg (by simp [h.nonempty, h.notDot]), if_neg h.notUp]

theorem named_of_partOf {part name : Bytes} (hone : slash ∉ part)
    (h : partOf part = some (.normal name)) : Named name := by
  unfold partOf at h
  split at h
  · cases h
  · next hnone =>
    split at h
    · cases h
    · next hup =>
      obtain rfl : part = name := by simpa using h
      exact ⟨hone, fun hnil => hnone (Or.inl hnil), fun hdot => hnone (Or.inr hdot), hup⟩

/-- A path's names are parts of it. -/
theorem part_of_normal {path name : Bytes} (h : .normal name ∈ components path) :
    name ∈ path.splitOn slash ∧ Named name := by
  have hpart (part : Bytes) (hpart : part ∈ path.splitOn slash)
      (h : partOf part = some (.normal name)) : name ∈ path.splitOn slash ∧ Named name := by
    have hone := Text.not_mem_of_mem_splitOn hpart
    refine ⟨?_, named_of_partOf hone h⟩
    unfold partOf at h
    split at h
    · cases h
    · split at h
      · cases h
      · obtain rfl : part = name := by simpa using h
        exact hpart
  unfold components at h
  generalize path.splitOn slash = all at h hpart ⊢
  split at h
  · cases h
  · cases h
  · next parts _ =>
    obtain ⟨part, hmem, hname⟩ := List.mem_filterMap.mp (List.mem_of_ne_of_mem (by simp) h)
    exact hpart part (List.mem_cons_of_mem _ hmem) hname
  · next first parts _ _ =>
    rcases List.mem_append.mp h with hfirst | hrest
    · split at hfirst
      · simp at hfirst
      · exact hpart first List.mem_cons_self (by simpa [eq_comm] using hfirst)
    · obtain ⟨part, hmem, hname⟩ := List.mem_filterMap.mp hrest
      exact hpart part (List.mem_cons_of_mem _ hmem) hname

/-- **Names joined are the path's components.** -/
theorem components_join {names : List Bytes} (hne : names ≠ []) (h : ∀ name ∈ names, Named name) :
    components ([slash].intercalate names) = names.map .normal := by
  have hparts : ([slash].intercalate names).splitOn slash = names :=
    List.splitOn_intercalate slash (fun name hname => (h name hname).one) hne
  have hmap : ∀ more : List Bytes, (∀ name ∈ more, Named name) →
      more.filterMap partOf = more.map .normal := by
    intro more hmore
    rw [← List.filterMap_eq_map]
    exact List.filterMap_congr fun name hname => partOf_named (hmore name hname)
  unfold components
  rw [hparts]
  obtain ⟨first, rest, rfl⟩ := List.exists_cons_of_ne_nil hne
  have hfirst := h first List.mem_cons_self
  have hrest := hmap rest fun name hname => h name (List.mem_cons_of_mem _ hname)
  split
  · next heq => cases heq
  · next heq => exact absurd (List.cons.inj heq).1 hfirst.nonempty
  · next heq => exact absurd (List.cons.inj heq).1 hfirst.nonempty
  · next part parts _ heq =>
    obtain ⟨rfl, rfl⟩ := List.cons.inj heq
    rw [if_neg hfirst.notDot, partOf_named hfirst, hrest]
    rfl

namespace RelativePath

/-- The root itself. -/
def here : RelativePath := ⟨[46], by decide⟩

/-- The names in `parts`, in order. -/
def names (parts : List Bytes) : List Bytes :=
  (parts.flatMap components).filterMap fun component =>
    match component with
    | .normal name => some name
    | _ => none

theorem named_of_names {parts : List Bytes} : ∀ name ∈ names parts, Named name := by
  intro name hname
  obtain ⟨component, hmem, hnormal⟩ := List.mem_filterMap.mp hname
  obtain ⟨part, -, hpart⟩ := List.mem_flatMap.mp hmem
  cases component with
  | normal other =>
    obtain rfl : other = name := by simpa using hnormal
    exact (part_of_normal hpart).2
  | _ => cases hnormal

theorem inside_join {names : List Bytes} (hne : names ≠ []) (h : ∀ name ∈ names, Named name) :
    inside ([slash].intercalate names) = true := by
  obtain ⟨first, rest, rfl⟩ := List.exists_cons_of_ne_nil hne
  have hfirst := h first List.mem_cons_self
  obtain ⟨byte, more, rfl⟩ := List.exists_cons_of_ne_nil hfirst.nonempty
  have hhead : ([slash].intercalate ((byte :: more) :: rest)).head? = some byte := by
    cases rest <;> simp [List.intercalate_cons_of_ne_nil]
  have hbyte : byte ≠ slash := fun heq => hfirst.one (heq ▸ List.mem_cons_self)
  unfold inside
  rw [components_join hne h, hhead]
  simp [hbyte]

/-- The path `parts` name together, keeping the names in them and nothing else. -/
def of (parts : List Bytes) : RelativePath :=
  if h : names parts = [] then here
  else ⟨[slash].intercalate (names parts), inside_join h named_of_names⟩

end RelativePath

/-! ## Paths of texts -/

theorem encode_join (parts : List (List Char)) :
    code.encode (['/'].intercalate parts) = [slash].intercalate (parts.map code.encode) := by
  induction parts with
  | nil => rfl
  | cons part parts ih =>
    cases parts with
    | nil => simp
    | cons next parts =>
      have hleft : ['/'].intercalate (part :: next :: parts) =
          part ++ ['/'] ++ ['/'].intercalate (next :: parts) :=
        List.intercalate_cons_of_ne_nil (List.cons_ne_nil _ _)
      have hright : [slash].intercalate ((part :: next :: parts).map code.encode) =
          code.encode part ++ [slash] ++ [slash].intercalate ((next :: parts).map code.encode) :=
        List.intercalate_cons_of_ne_nil (List.cons_ne_nil _ _)
      rw [hleft, hright, Sync.Code.encode_append, Sync.Code.encode_append, ih]
      rfl

theorem splitOn_encode (text : List Char) :
    (code.encode text).splitOn slash = (text.splitOn '/').map code.encode := by
  have hword : code.word '/' = [slash] := by decide
  have hone : ∀ part ∈ (text.splitOn '/').map code.encode, slash ∉ part := by
    intro part hpart hmem
    obtain ⟨chars, hchars, rfl⟩ := List.mem_map.mp hpart
    obtain ⟨c, hc, hbyte⟩ := List.mem_flatMap.mp hmem
    have hne : c ≠ '/' := by
      rintro rfl
      exact Text.not_mem_of_mem_splitOn hchars hc
    exact Sync.Code.mark_not_mem hword hne slash hbyte rfl
  have hne : (text.splitOn '/').map code.encode ≠ [] := by
    simp [List.splitOn_ne_nil]
  have hsplit := List.splitOn_intercalate slash hone hne
  rwa [← encode_join, List.intercalate_splitOn] at hsplit

/-- Every part of a path is passed over, a step up, or a name of it. -/
theorem part_cases {path part : Bytes} (h : part ∈ path.splitOn slash) :
    part = [] ∨ part = [46] ∨ part = [46, 46] ∨ .normal part ∈ components path := by
  by_cases hnil : part = []
  · exact Or.inl hnil
  by_cases hdot : part = [46]
  · exact Or.inr (Or.inl hdot)
  by_cases hup : part = [46, 46]
  · exact Or.inr (Or.inr (Or.inl hup))
  have hpart : partOf part = some (.normal part) := by
    unfold partOf
    rw [if_neg (by simp [hnil, hdot]), if_neg hup]
  refine Or.inr (Or.inr (Or.inr ?_))
  unfold components
  generalize path.splitOn slash = all at h ⊢
  split
  · cases h
  · exact absurd (List.mem_singleton.mp h) hnil
  · next parts _ =>
    have hmem : part ∈ parts := (List.mem_cons.mp h).resolve_left hnil
    exact List.mem_cons_of_mem _ (List.mem_filterMap.mpr ⟨part, hmem, hpart⟩)
  · next first parts _ _ =>
    rcases List.mem_cons.mp h with rfl | hmem
    · rw [if_neg hdot, hpart]
      exact List.mem_append_left _ List.mem_cons_self
    · exact List.mem_append_right _ (List.mem_filterMap.mpr ⟨part, hmem, hpart⟩)

/-- **A path with a text's components is a text's.** -/
theorem text_of_components {path : Bytes} {text : List Char}
    (h : components path = components (code.encode text)) : ∃ other, path = code.encode other := by
  have hparts : ∀ part ∈ path.splitOn slash, ∃ other, code.encode other = part := by
    intro part hpart
    rcases part_cases hpart with rfl | rfl | rfl | hnormal
    · exact ⟨[], rfl⟩
    · exact ⟨['.'], by decide⟩
    · exact ⟨['.', '.'], by decide⟩
    · rw [h] at hnormal
      have hname := (part_of_normal hnormal).1
      rw [splitOn_encode] at hname
      obtain ⟨other, -, hother⟩ := List.mem_map.mp hname
      exact ⟨other, hother⟩
  obtain ⟨others, hothers⟩ : path.splitOn slash ∈ Set.range (List.map code.encode) := by
    rw [Set.range_list_map]
    exact hparts
  refine ⟨['/'].intercalate others, ?_⟩
  rw [encode_join, hothers, List.intercalate_splitOn]

/-! ## Locations -/

/-- What a location is relative to: the run's worktree, or the run's own directory. -/
inductive LocationRoot where
  | work | run
  deriving DecidableEq

/-- The prefix a location carries to name its root. -/
def LocationRoot.prefix_ : LocationRoot → List Char
  | .work => []
  | .run => "run:".toList

/-- The lines a finding names: one, or a span. -/
structure LineRange where
  start : UInt32
  end_ : Option UInt32
  deriving DecidableEq

/-- A finding's place. -/
structure Location where
  root : LocationRoot
  path : RelativePath
  range : Option LineRange
  deriving DecidableEq

/-- Whether two locations are equal: paths are compared by their components. -/
def Location.Same (a b : Location) : Prop :=
  a.root = b.root ∧ components a.path.path = components b.path.path ∧ a.range = b.range

/-- A location that does not read. -/
inductive InvalidLocation where
  | empty
  | escapes (path : List Char)
  | notARange (text : List Char)
  | backwards (start end_ : UInt32)
  deriving DecidableEq

namespace LineRange

/-- A line range written down. -/
def display (range : LineRange) : List Char :=
  Nat.toDigits 10 range.start.toNat ++
    match range.end_ with
    | some end_ => '-' :: Nat.toDigits 10 end_.toNat
    | none => []

/-- A `u32` read from its digits. -/
def line (text : List Char) : Option UInt32 := (fromStrRadix 10 (2 ^ 32) text).map UInt32.ofNat

def fromStr (text : List Char) : Except InvalidLocation LineRange :=
  let (start, end_) := match splitOnce ['-'] text with
    | some (start, end_) => (start, some end_)
    | none => (text, none)
  match line start with
  | none => .error (.notARange text)
  | some start =>
    match end_ with
    | none => .ok ⟨start, none⟩
    | some end_ =>
      match line end_ with
      | none => .error (.notARange text)
      | some end_ =>
        if end_ < start then .error (.backwards start end_) else .ok ⟨start, some end_⟩

end LineRange

/-- A path read from text. -/
def RelativePath.fromStr (text : List Char) : Except InvalidLocation RelativePath :=
  if Text.trim (.ofList text) = "" then .error .empty
  else if h : inside (code.encode text) = true then .ok ⟨code.encode text, h⟩
  else .error (.escapes text)

namespace Location

/-- The root a location names, and what is left once its prefix is off. -/
def rootOf (text : List Char) : LocationRoot × List Char :=
  match text with
  | 'r' :: 'u' :: 'n' :: ':' :: rest => (.run, rest)
  | _ => (.work, text)

/-- Whether what follows the last colon is taken for a range: it begins with a digit. -/
def rangeLike (rest : List Char) : Bool := rest.head?.any fun c => '0' ≤ c ∧ c ≤ '9'

/-- The path and the range of a text whose prefix is off. -/
def cutRange (text : List Char) : List Char × Option (List Char) :=
  match rsplitOnce ':' text with
  | some (path, rest) => if rangeLike rest then (path, some rest) else (text, none)
  | none => (text, none)

def fromStr (text : List Char) : Except InvalidLocation Location :=
  let (root, text) := rootOf text
  let (path, rest) := cutRange text
  match rest with
  | none => (RelativePath.fromStr path).map fun path => ⟨root, path, none⟩
  | some rest =>
    match LineRange.fromStr rest with
    | .error err => .error err
    | .ok range => (RelativePath.fromStr path).map fun path => ⟨root, path, some range⟩

/-- `to_string_lossy` of a path. -/
def shown (path : RelativePath) : List Char := chars none path.path

/-- What is written behind a path. -/
def suffix (range : Option LineRange) : List Char :=
  match range with
  | some range => ':' :: range.display
  | none => []

/-- A location's one spelling. -/
def display (location : Location) : List Char :=
  location.root.prefix_ ++ (shown location.path ++ suffix location.range)

end Location

/-! ## A range read back -/

namespace LineRange

/-- A range that does not end before it starts. -/
def Ordered (range : LineRange) : Prop := ∀ end_ ∈ range.end_, range.start ≤ end_

instance (range : LineRange) : Decidable range.Ordered :=
  inferInstanceAs (Decidable (∀ end_ ∈ range.end_, _))

theorem line_display (n : UInt32) : line (Nat.toDigits 10 n.toNat) = some n := by
  unfold line
  rw [Str.fromStrRadix_toDigits (by decide) (by decide) n.toNat_lt, Option.map_some,
    UInt32.ofNat_toNat]

theorem digit_of_mem {n : Nat} {c : Char} (h : c ∈ Nat.toDigits 10 n) : '0' ≤ c ∧ c ≤ '9' := by
  have hdigit := Nat.isDigit_of_mem_toDigits (by decide) (by decide) h
  simp only [Char.isDigit, Bool.and_eq_true, decide_eq_true_eq] at hdigit
  exact ⟨hdigit.1, hdigit.2⟩

/-- No digit is one of the marks a location is cut at. -/
theorem mark_not_mem (n : Nat) : '-' ∉ Nat.toDigits 10 n ∧ ':' ∉ Nat.toDigits 10 n :=
  ⟨fun h => absurd (digit_of_mem h) (by decide), fun h => absurd (digit_of_mem h) (by decide)⟩

theorem splitOnce_digits (n : Nat) : splitOnce ['-'] (Nat.toDigits 10 n) = none := by
  refine Option.map_eq_none_iff.mpr (Replace.find_eq_none.mpr fun hinfix => ?_)
  exact (mark_not_mem n).1 ((List.singleton_infix_iff _ _).mp hinfix)

/-- **A range written is read as itself**, unless it ends before it starts. -/
theorem fromStr_display (range : LineRange) :
    fromStr range.display = if range.Ordered then .ok range
      else .error (.backwards range.start (range.end_.getD 0)) := by
  obtain ⟨start, end_⟩ := range
  cases end_ with
  | none =>
    have hordered : Ordered ⟨start, none⟩ := fun _ h => by cases h
    rw [if_pos hordered]
    unfold fromStr display
    rw [List.append_nil, splitOnce_digits]
    dsimp only
    rw [line_display]
  | some end_ =>
    have hcut : splitOnce ['-'] (Nat.toDigits 10 start.toNat ++ '-' :: Nat.toDigits 10 end_.toNat) =
        some (Nat.toDigits 10 start.toNat, Nat.toDigits 10 end_.toNat) :=
      Str.splitOnce_mark (mark_not_mem _).1 _
    unfold fromStr display
    rw [hcut]
    dsimp only
    rw [line_display, line_display]
    dsimp only
    have hordered : Ordered ⟨start, some end_⟩ ↔ ¬ end_ < start := by
      simp [Ordered, UInt32.not_lt]
    by_cases hlt : end_ < start
    · rw [if_pos hlt, if_neg (fun h => hordered.mp h hlt)]
      rfl
    · rw [if_neg hlt, if_pos (hordered.mpr hlt)]

/-- A range that reads does not end before it starts. -/
theorem ordered_of_fromStr {text : List Char} {range : LineRange} (h : fromStr text = .ok range) :
    range.Ordered := by
  unfold fromStr at h
  generalize (match splitOnce ['-'] text with
    | some (start, end_) => (start, some end_)
    | none => (text, none)) = cut at h
  obtain ⟨start, end_⟩ := cut
  dsimp only at h
  split at h
  · cases h
  cases end_ with
  | none =>
    cases h
    exact fun _ hend => by cases hend
  | some end_ =>
    dsimp only at h
    split at h
    · cases h
    · split at h
      · cases h
      · next hle =>
        cases h
        rintro end_ hend
        cases hend
        exact UInt32.not_lt.mp hle

/-- A range is written as digits and a hyphen: it begins with a digit, and holds no colon. -/
theorem display_digits (range : LineRange) :
    ':' ∉ range.display ∧ ∃ c rest, range.display = c :: rest ∧ '0' ≤ c ∧ c ≤ '9' := by
  obtain ⟨start, end_⟩ := range
  constructor
  · intro hmem
    unfold display at hmem
    rcases List.mem_append.mp hmem with hstart | hrest
    · exact (mark_not_mem _).2 hstart
    · cases end_ with
      | none => cases hrest
      | some end_ =>
        rcases List.mem_cons.mp hrest with hne | hdigits
        · cases hne
        · exact (mark_not_mem _).2 hdigits
  · obtain ⟨c, rest, hdigits⟩ :=
      List.exists_cons_of_ne_nil (Nat.toDigits_ne_nil (n := start.toNat) (b := 10))
    have hc := digit_of_mem (n := start.toNat) (hdigits ▸ List.mem_cons_self)
    unfold display
    rw [hdigits, List.cons_append]
    exact ⟨c, _, rfl, hc⟩

end LineRange

/-! ## A location read back -/

namespace Location

/-- Whether the last colon of a text is taken for a range's. -/
def takesRange (text : List Char) : Bool :=
  (rsplitOnce ':' text).any fun cut => rangeLike cut.2

theorem cutRange_bare {text : List Char} (h : takesRange text = false) :
    cutRange text = (text, none) := by
  unfold takesRange at h
  unfold cutRange
  cases hcut : rsplitOnce ':' text with
  | none => rfl
  | some cut =>
    rw [hcut, Option.any_some] at h
    dsimp only
    rw [h]
    rfl

theorem cutRange_range (path : List Char) (range : LineRange) :
    cutRange (path ++ ':' :: range.display) = (path, some range.display) := by
  obtain ⟨hcolon, c, rest, hdisplay, hlow, hhigh⟩ := range.display_digits
  have hlike : rangeLike range.display = true := by
    rw [hdisplay]
    exact decide_eq_true ⟨hlow, hhigh⟩
  unfold cutRange
  rw [Str.rsplitOnce_mark hcolon]
  dsimp only
  rw [if_pos hlike]

/-- What `cutRange` leaves: the text whole, or its path and what follows its last colon. -/
theorem cutRange_cases (text : List Char) :
    (cutRange text = (text, none) ∧ takesRange text = false) ∨
      ∃ path rest, cutRange text = (path, some rest) ∧ text = path ++ ':' :: rest := by
  cases htakes : takesRange text with
  | false => exact Or.inl ⟨cutRange_bare htakes, rfl⟩
  | true =>
    right
    have hcolon : ':' ∈ text := by
      by_contra hnot
      rw [takesRange, Str.rsplitOnce_of_notMem hnot] at htakes
      cases htakes
    obtain ⟨path, rest, rfl, hrest⟩ := Str.exists_rsplitOnce hcolon
    rw [takesRange, Str.rsplitOnce_mark hrest, Option.any_some] at htakes
    refine ⟨path, rest, ?_, rfl⟩
    unfold cutRange
    rw [Str.rsplitOnce_mark hrest]
    exact if_pos htakes

/-- The other root's prefix is found where it is, whatever follows the first colon. -/
theorem prefix_colon {path rest : List Char} (h : "run:".toList <+: path ++ ':' :: rest)
    (other : List Char) : "run:".toList <+: path ++ ':' :: other := by
  obtain ⟨tail, htail⟩ := h
  have htail : 'r' :: 'u' :: 'n' :: ':' :: tail = path ++ ':' :: rest := htail
  rcases path with _ | ⟨a, _ | ⟨b, _ | ⟨c, _ | ⟨d, path⟩⟩⟩⟩
  · cases htail
  · cases htail
  · cases htail
  · cases htail
    exact ⟨other, rfl⟩
  · cases htail
    exact ⟨path ++ ':' :: other, rfl⟩

theorem work_of_rootOf {text : List Char} (h : (rootOf text).1 = .work) :
    ¬ "run:".toList <+: text ∧ (rootOf text).2 = text := by
  unfold rootOf at h ⊢
  split at h
  · cases h
  · next hnot =>
    refine ⟨?_, rfl⟩
    rintro ⟨rest, rfl⟩
    exact hnot rest rfl

theorem rootOf_work {text : List Char} (h : ¬ "run:".toList <+: text) :
    rootOf text = (.work, text) := by
  unfold rootOf
  split
  · next rest => exact absurd ⟨rest, rfl⟩ h
  · rfl

/-- What a location's own text has to say for it to be read back. -/
structure Readable (location : Location) : Prop where
  /-- The path is UTF-8. -/
  text : code.encode (shown location.path) = location.path.path
  nonblank : Text.trim (.ofList (shown location.path)) ≠ ""
  ordered : ∀ range ∈ location.range, range.Ordered
  /-- Under the work, the path and its range do not begin with the other root's prefix. -/
  root : location.root = .work → ¬ "run:".toList <+: shown location.path ++ suffix location.range
  /-- Without a range, the path's own last colon is not taken for one's. -/
  bare : location.range = none → takesRange (shown location.path) = false

theorem fromStr_path {path : RelativePath} (htext : code.encode (shown path) = path.path)
    (hnonblank : Text.trim (.ofList (shown path)) ≠ "") :
    RelativePath.fromStr (shown path) = .ok path := by
  unfold RelativePath.fromStr
  rw [if_neg hnonblank, dif_pos (by rw [htext]; exact path.within)]
  congr 1
  obtain ⟨bytes, within⟩ := path
  exact RelativePath.mk.injEq .. ▸ htext

/-- **A readable location is read back as it is.** -/
theorem fromStr_display {location : Location} (h : location.Readable) :
    fromStr location.display = .ok location := by
  obtain ⟨root, path, range⟩ := location
  have hroot : rootOf (display ⟨root, path, range⟩) = (root, shown path ++ suffix range) := by
    cases root with
    | work => exact rootOf_work (h.root rfl)
    | run => rfl
  have hpath := fromStr_path h.text h.nonblank
  unfold fromStr
  rw [hroot]
  dsimp only
  cases range with
  | none =>
    rw [show shown path ++ suffix none = shown path from List.append_nil _,
      cutRange_bare (h.bare rfl)]
    dsimp only
    rw [hpath]
    rfl
  | some range =>
    rw [show shown path ++ suffix (some range) = shown path ++ ':' :: range.display from rfl,
      cutRange_range]
    dsimp only
    rw [LineRange.fromStr_display, if_pos (h.ordered range rfl)]
    dsimp only
    rw [hpath]
    rfl

/-- The path a location is read with is a text's. -/
theorem path_of_fromStr {text : List Char} {path : RelativePath}
    (h : RelativePath.fromStr text = .ok path) :
    path.path = code.encode text ∧ Text.trim (.ofList text) ≠ "" := by
  unfold RelativePath.fromStr at h
  split at h
  · cases h
  · next hnonblank =>
    split at h
    · cases h
      exact ⟨rfl, hnonblank⟩
    · cases h

/-- What a text reads as, taken apart: its root, its path, and its range. -/
theorem fromStr_inv {text : List Char} {location : Location} (h : fromStr text = .ok location) :
    (rootOf text).1 = location.root ∧
      RelativePath.fromStr (cutRange (rootOf text).2).1 = .ok location.path ∧
      (location.range = none ∧ (cutRange (rootOf text).2).2 = none ∨
        ∃ rest range, (cutRange (rootOf text).2).2 = some rest ∧
          LineRange.fromStr rest = .ok range ∧ location.range = some range) := by
  unfold fromStr at h
  dsimp only at h
  cases hrest : (cutRange (rootOf text).2).2 with
  | none =>
    rw [hrest] at h
    dsimp only at h
    cases hpath : RelativePath.fromStr (cutRange (rootOf text).2).1 with
    | error err =>
      rw [hpath] at h
      cases h
    | ok path =>
      rw [hpath] at h
      cases h
      exact ⟨rfl, rfl, Or.inl ⟨rfl, rfl⟩⟩
  | some rest =>
    rw [hrest] at h
    dsimp only at h
    cases hrange : LineRange.fromStr rest with
    | error err =>
      rw [hrange] at h
      cases h
    | ok range =>
      rw [hrange] at h
      dsimp only at h
      cases hpath : RelativePath.fromStr (cutRange (rootOf text).2).1 with
      | error err =>
        rw [hpath] at h
        cases h
      | ok path =>
        rw [hpath] at h
        cases h
        exact ⟨rfl, rfl, Or.inr ⟨rest, range, rfl, hrange, rfl⟩⟩

/-- **What was read is readable.** -/
theorem readable_of_fromStr {text : List Char} {location : Location}
    (h : fromStr text = .ok location) : location.Readable := by
  obtain ⟨hroot, hpath, hrange⟩ := fromStr_inv h
  obtain ⟨hbytes, hnonblank⟩ := path_of_fromStr hpath
  have hshown : shown location.path = (cutRange (rootOf text).2).1 := by
    rw [shown, hbytes, Utf8.chars_encode_all]
  refine ⟨by rw [hshown, hbytes], by rwa [hshown], ?_, ?_, ?_⟩
  · intro range hmem
    rcases hrange with ⟨hnone, -⟩ | ⟨rest, read, -, hread, hsome⟩
    · rw [hnone] at hmem
      cases hmem
    · rw [hsome] at hmem
      cases hmem
      exact LineRange.ordered_of_fromStr hread
  · intro hwork
    obtain ⟨hnot, hsame⟩ := work_of_rootOf (hroot.trans hwork)
    rw [hsame] at hrange hshown
    rw [hshown]
    rcases cutRange_cases text with ⟨hcut, -⟩ | ⟨path, rest, hcut, htext⟩
    · rw [hcut] at hrange ⊢
      rcases hrange with ⟨hnone, -⟩ | ⟨rest, read, hrest, -⟩
      · rw [hnone]
        rwa [show suffix none = [] from rfl, List.append_nil]
      · cases hrest
    · rw [hcut] at hrange ⊢
      rcases hrange with ⟨-, hrest⟩ | ⟨_, read, -, -, hsome⟩
      · cases hrest
      · rw [hsome]
        intro hprefix
        rw [htext] at hnot
        exact hnot (prefix_colon hprefix rest)
  · intro hnone
    rw [hshown]
    rcases cutRange_cases (rootOf text).2 with ⟨hcut, hbare⟩ | ⟨path, rest, hcut, -⟩
    · rw [hcut]
      exact hbare
    · rw [hcut] at hrange
      rcases hrange with ⟨-, hrest⟩ | ⟨_, _, -, -, hsome⟩
      · cases hrest
      · rw [hnone] at hsome
        cases hsome

/-- **A location read back is readable.** -/
theorem readable_of_read_back {location read : Location}
    (h : fromStr location.display = .ok read) (hsame : read.Same location) :
    location.Readable := by
  obtain ⟨hroot, hpath, hrange⟩ := fromStr_inv h
  obtain ⟨hbytes, hnonblank⟩ := path_of_fromStr hpath
  have htext : code.encode (shown location.path) = location.path.path := by
    have hcomponents := hsame.2.1
    rw [hbytes] at hcomponents
    obtain ⟨text, htext⟩ := text_of_components hcomponents.symm
    rw [shown, htext, Utf8.chars_encode_all]
  have hwork (hwork : location.root = .work) :
      ¬ "run:".toList <+: shown location.path ++ suffix location.range := by
    have hnot := (work_of_rootOf (hroot.trans (hsame.1.trans hwork))).1
    unfold display at hnot
    rw [hwork] at hnot
    exact hnot
  have hrest : (rootOf location.display).2 = shown location.path ++ suffix location.range := by
    cases hside : location.root with
    | work =>
      rw [(work_of_rootOf (hroot.trans (hsame.1.trans hside))).2, display, hside]
      rfl
    | run =>
      rw [display, hside]
      rfl
  rw [hrest] at hpath hrange hnonblank
  cases hlines : location.range with
  | none =>
    have hnone : read.range = none := hsame.2.2.trans hlines
    rw [hlines, show suffix none = [] from rfl, List.append_nil] at hpath hrange hnonblank
    rcases cutRange_cases (shown location.path) with ⟨hcut, hbare⟩ | ⟨path, rest, hcut, -⟩
    · rw [hcut] at hnonblank
      exact ⟨htext, hnonblank, by simp [hlines], hwork, fun _ => hbare⟩
    · rw [hcut] at hrange
      rcases hrange with ⟨-, hrest⟩ | ⟨_, _, -, -, hsome⟩
      · cases hrest
      · rw [hnone] at hsome
        cases hsome
  | some range =>
    rw [hlines, show suffix (some range) = ':' :: range.display from rfl, cutRange_range]
      at hpath hrange hnonblank
    refine ⟨htext, hnonblank, ?_, hwork, fun hnone => ?_⟩
    · intro other hmem
      rw [hlines] at hmem
      cases hmem
      rcases hrange with ⟨-, hrest⟩ | ⟨rest, read', hrest, hread, -⟩
      · cases hrest
      · cases hrest
        rw [LineRange.fromStr_display] at hread
        split at hread
        · assumption
        · cases hread
    · rw [hlines] at hnone
      cases hnone

/-- **A text without a range reads as the path it is.** -/
theorem fromStr_bare {text : List Char} (hinside : inside (code.encode text) = true)
    (hroot : ¬ "run:".toList <+: text) (hbare : takesRange text = false)
    (hnonblank : Text.trim (.ofList text) ≠ "") :
    fromStr text = .ok ⟨.work, ⟨code.encode text, hinside⟩, none⟩ := by
  unfold fromStr
  rw [rootOf_work hroot]
  dsimp only
  rw [cutRange_bare hbare]
  dsimp only
  unfold RelativePath.fromStr
  rw [if_neg hnonblank, dif_pos hinside]
  rfl

/-- What follows a text's last colon, when it reads as a line range. -/
def rangeOf (text : List Char) : Option LineRange :=
  (rsplitOnce ':' text).bind fun cut => (LineRange.fromStr cut.2).toOption

end Location

open Location (takesRange rangeOf shown)

/-- **A location is read back.**  What was read is written and read back as it is.  What was
    composed is read back as an equal location exactly where it is readable: its path is UTF-8 and
    not blank, its range does not end before it starts, and neither its path's front nor, without a
    range, its path's last colon says something else.  A text that says neither is the path it is. -/
theorem location_read_back :
    (∀ text location, Location.fromStr text = .ok location →
      Location.fromStr location.display = .ok location) ∧
    (∀ root parts range, (range = none → takesRange (shown (.of parts)) = true →
        (rangeOf (shown (.of parts))).isSome = true) →
      ((∃ read, Location.fromStr (Location.display ⟨root, .of parts, range⟩) = .ok read ∧
        read.Same ⟨root, .of parts, range⟩) ↔ Location.Readable ⟨root, .of parts, range⟩)) ∧
    ∀ text (h : inside (code.encode text) = true), ¬ "run:".toList <+: text →
      takesRange text = false → Text.trim (.ofList text) ≠ "" →
        Location.fromStr text = .ok ⟨.work, ⟨code.encode text, h⟩, none⟩ := by
  refine ⟨?_, ?_, ?_⟩
  · intro text location h
    exact Location.fromStr_display (Location.readable_of_fromStr h)
  · intro root parts range _
    constructor
    · rintro ⟨read, hread, hsame⟩
      exact Location.readable_of_read_back hread hsame
    · intro h
      exact ⟨_, Location.fromStr_display h, rfl, rfl, rfl⟩
  · intro text h hroot hbare hnonblank
    exact Location.fromStr_bare h hroot hbare hnonblank

/-- The engine's own place, three lines of it. -/
def objects : Location :=
  ⟨.run, .of [code.encode "objects".toList], some ⟨10, some 14⟩⟩

theorem location_read_back_objects :
    Location.fromStr objects.display = .ok objects ∧
      Location.fromStr "run:objects:10-14".toList = .ok objects := by
  have hread : Location.fromStr "run:objects:10-14".toList = .ok objects := by decide +kernel
  exact ⟨location_read_back.1 _ _ hread, hread⟩

/-- **A file of the work named `run:a` is read back as the register's `a`.** -/
theorem not_location_read_back :
    ¬ ((∀ root parts range,
        ∃ read, Location.fromStr (Location.display ⟨root, .of parts, range⟩) = .ok read ∧
          read.Same ⟨root, .of parts, range⟩) ∧
      ∀ text (h : inside (code.encode text) = true), ¬ "run:".toList <+: text →
        rangeOf text = none → Location.fromStr text = .ok ⟨.work, ⟨code.encode text, h⟩, none⟩) := by
  rintro ⟨h, -⟩
  obtain ⟨read, hread, hroot, -⟩ := h .work [code.encode "run:a".toList] none
  have hrun : Location.fromStr (Location.display
      ⟨.work, .of [code.encode "run:a".toList], none⟩) =
        .ok ⟨.run, .of [code.encode "a".toList], none⟩ := by decide +kernel
  rw [hread] at hrun
  cases hrun
  cases hroot

end Yunta.Findings
