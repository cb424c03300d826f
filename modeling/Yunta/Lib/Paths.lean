/-
  Paths by their text, as Unix reads them.

  1. **Components** — `components` reads a path as `Path::components` does: the root, a leading `.`,
     each `..` and each name; every other `.` and every repeated separator is passed over.

  2. **Prefixes** — `startsWith` and `stripPrefix` compare whole components, never characters.

  3. **Resolving** — `lexicalAbsolute` collapses `.` and `..` without reading a disk.  What it gives is
     `Resolved`: a root, maybe, and names, so its text is read back as the components it is made of
     (`components_render`).
-/
import Yunta.Lib.Text

set_option linter.unusedVariables false

namespace Paths

/-! ## Components -/

inductive Component where
  | root | cur | parent
  | name (text : List Char)
  deriving DecidableEq

/-- A piece of a path's text that is a component of its own. -/
def piece (text : List Char) : Component := if text = ['.', '.'] then .parent else .name text

/-- What a path's text opens with, beside its pieces. -/
def opening (text : List Char) : List Component :=
  if text.head? = some '/' then [.root]
  else if (text.splitOn '/').head? = some ['.'] then [.cur]
  else []

/-- `Path::components`. -/
def components (path : String) : List Component :=
  opening path.toList ++
    ((path.toList.splitOn '/').filter fun text => text ≠ [] ∧ text ≠ ['.']).map piece

/-- The texts of the names among components. -/
def textsOf (path : List Component) : List (List Char) :=
  path.filterMap fun
    | .name text => some text
    | _ => none

/-- The text of components: names and a root. -/
def render (path : List Component) : String :=
  .ofList ((if path.head? = some .root then ['/'] else []) ++ ['/'].intercalate (textsOf path))

/-! ## Prefixes -/

/-- `Path::starts_with`. -/
def startsWith (path base : String) : Bool := (components base).isPrefixOf (components path)

/-- `Path::strip_prefix`, of a path written without a `.` or a repeated separator. -/
def stripPrefix (path base : String) : Option String :=
  if startsWith path base then
    some (render ((components path).drop (components base).length))
  else none

/-! ## Resolving -/

/-- `PathBuf::pop`: a root has no parent. -/
def pop (path : List Component) : List Component :=
  if path.getLast? = some .root then path else path.dropLast

/-- `PathBuf::push`, of one component: a root takes the place of all before it. -/
def push (path : List Component) : Component → List Component
  | .root => [.root]
  | component => path ++ [component]

/-- `Path::join`. -/
def join (base path : String) : String :=
  if path.toList.head? = some '/' then path
  else if base = "" ∨ base.toList.getLast? = some '/' then base ++ path
  else base ++ "/" ++ path

/-- One component of a path resolved. -/
def resolve (resolved : List Component) : Component → List Component
  | .cur => resolved
  | .parent => pop resolved
  | other => push resolved other

/-- `path` as an absolute path, resolved against `base` when relative, with `.` and `..` collapsed. -/
def lexicalAbsolute (base path : String) : String :=
  let joined := if path.toList.head? = some '/' then path else join base path
  render ((components joined).foldl resolve [])

/-! ## What is resolved -/

/-- A text a name may have. -/
def IsName (text : List Char) : Prop :=
  text ≠ [] ∧ text ≠ ['.'] ∧ text ≠ ['.', '.'] ∧ '/' ∉ text

/-- Names alone. -/
def Names (path : List Component) : Prop := ∀ c ∈ path, ∃ text, c = .name text ∧ IsName text

/-- A root, maybe, and names behind it. -/
def Resolved (path : List Component) : Prop := Names path ∨ ∃ rest, path = .root :: rest ∧ Names rest

theorem names_nil : Names [] := nofun

theorem Names.append {path : List Component} (h : Names path) {text : List Char}
    (htext : IsName text) : Names (path ++ [.name text]) := by
  intro c hc
  rcases List.mem_append.mp hc with hc | hc
  · exact h c hc
  · exact ⟨text, List.mem_singleton.mp hc, htext⟩

theorem Names.sublist {path part : List Component} (h : Names path) (hpart : part.Sublist path) :
    Names part := fun c hc => h c (hpart.subset hc)

/-- A component a path's text is read as. -/
def Read (c : Component) : Prop := ∀ text, c = .name text → IsName text

theorem read_components {path : String} : ∀ c ∈ components path, Read c := by
  intro c hc text htext
  subst htext
  rcases List.mem_append.mp hc with hc | hc
  · rw [opening] at hc
    split at hc
    · cases List.mem_singleton.mp hc
    · split at hc
      · cases List.mem_singleton.mp hc
      · cases hc
  · obtain ⟨part, hpart, heq⟩ := List.mem_map.mp hc
    obtain ⟨hmem, hne⟩ := List.mem_filter.mp hpart
    obtain ⟨hnil, hdot⟩ := of_decide_eq_true hne
    rw [piece] at heq
    split at heq
    · cases heq
    · next hdots =>
      cases heq
      exact ⟨hnil, hdot, hdots, Text.not_mem_of_mem_splitOn hmem⟩

theorem resolved_pop {path : List Component} (h : Resolved path) : Resolved (pop path) := by
  rw [pop]
  split
  · exact h
  · next hroot =>
    rcases h with h | ⟨rest, rfl, h⟩
    · exact .inl (h.sublist (List.dropLast_sublist path))
    · cases rest with
      | nil => exact absurd rfl hroot
      | cons c rest => exact .inr ⟨(c :: rest).dropLast, rfl, h.sublist (List.dropLast_sublist _)⟩

theorem resolved_resolve {path : List Component} (h : Resolved path) {c : Component} (hc : Read c) :
    Resolved (resolve path c) := by
  cases c with
  | root => exact .inr ⟨[], rfl, names_nil⟩
  | cur => exact h
  | parent => exact resolved_pop h
  | name text =>
    have htext := hc text rfl
    rcases h with h | ⟨rest, rfl, h⟩
    · exact .inl (h.append htext)
    · exact .inr ⟨rest ++ [.name text], rfl, h.append htext⟩

/-- **Resolving leaves a root and names.** -/
theorem resolved_foldl {path : List Component} (h : ∀ c ∈ path, Read c) :
    Resolved (path.foldl resolve []) :=
  List.foldlRecOn (motive := Resolved) path resolve (.inl names_nil)
    fun _ hresolved c hc => resolved_resolve hresolved (h c hc)

/-! ## What is rendered -/

theorem Names.eq_map {path : List Component} (h : Names path) :
    path = (textsOf path).map .name ∧ ∀ text ∈ textsOf path, IsName text := by
  induction path with
  | nil => exact ⟨rfl, nofun⟩
  | cons c path ih =>
    obtain ⟨text, rfl, htext⟩ := h c List.mem_cons_self
    obtain ⟨heq, hall⟩ := ih fun d hd => h d (List.mem_cons_of_mem _ hd)
    refine ⟨congrArg (Component.name text :: ·) heq, fun other hother => ?_⟩
    rcases List.mem_cons.mp hother with rfl | hother
    · exact htext
    · exact hall other hother

/-- What is written between separators is read as it was written. -/
theorem pieces_intercalate {texts : List (List Char)} (h : ∀ text ∈ texts, IsName text) :
    (((['/'].intercalate texts).splitOn '/').filter fun text => text ≠ [] ∧ text ≠ ['.']).map piece =
      texts.map .name := by
  cases texts with
  | nil => decide
  | cons first texts =>
    have hsplit : (['/'].intercalate (first :: texts)).splitOn '/' = first :: texts :=
      List.splitOn_intercalate '/' (fun text htext => (h text htext).2.2.2) (List.cons_ne_nil _ _)
    rw [hsplit, List.filter_eq_self.mpr]
    · refine List.map_congr_left fun text htext => ?_
      rw [piece, if_neg (h text htext).2.2.1]
    · exact fun text htext => decide_eq_true ⟨(h text htext).1, (h text htext).2.1⟩

/-- Names that are written open with neither a root nor a `.`. -/
theorem opening_intercalate {texts : List (List Char)} (h : ∀ text ∈ texts, IsName text) :
    opening (['/'].intercalate texts) = [] := by
  cases texts with
  | nil => decide
  | cons first texts =>
    have hfirst := h first List.mem_cons_self
    have hsplit : (['/'].intercalate (first :: texts)).splitOn '/' = first :: texts :=
      List.splitOn_intercalate '/' (fun text htext => (h text htext).2.2.2) (List.cons_ne_nil _ _)
    have hhead : (['/'].intercalate (first :: texts)).head? = first.head? := by
      obtain ⟨c, rest, rfl⟩ := List.exists_cons_of_ne_nil hfirst.1
      cases texts with
      | nil => rfl
      | cons next texts => rfl
    have hslash : ¬ first.head? = some '/' := fun hs => hfirst.2.2.2 (List.mem_of_mem_head? hs)
    have hdot : ¬ some first = some ['.'] := fun hs => hfirst.2.1 (Option.some.inj hs)
    rw [opening, hsplit, hhead, if_neg hslash, List.head?_cons, if_neg hdot]

/-- **What is resolved is written as it is read.** -/
theorem components_render {path : List Component} (h : Resolved path) :
    components (render path) = path := by
  rcases h with h | ⟨rest, rfl, h⟩
  · obtain ⟨heq, htexts⟩ := h.eq_map
    have hroot : ¬ path.head? = some .root := by
      intro hhead
      obtain ⟨text, hname, -⟩ := h _ (List.mem_of_mem_head? hhead)
      cases hname
    rw [components, render, if_neg hroot, List.nil_append, String.toList_ofList,
      opening_intercalate htexts, pieces_intercalate htexts]
    exact heq.symm
  · obtain ⟨heq, htexts⟩ := h.eq_map
    have htextsOf : textsOf (.root :: rest) = textsOf rest := rfl
    have hsplit : ('/' :: ['/'].intercalate (textsOf rest)).splitOn '/' =
        [] :: (['/'].intercalate (textsOf rest)).splitOn '/' := by
      rw [List.splitOn_cons_eq_if_modifyHead, if_pos (by decide)]
    rw [components, render, if_pos List.head?_cons, htextsOf, String.toList_ofList,
      List.singleton_append, opening, if_pos List.head?_cons, hsplit,
      List.filter_cons_of_neg (by simp), pieces_intercalate htexts]
    exact congrArg (Component.root :: ·) heq.symm

/-- **Resolving twice is resolving once.** -/
theorem components_lexicalAbsolute (base path : String) :
    Resolved (components (lexicalAbsolute base path)) := by
  have h : Resolved ((components (if path.toList.head? = some '/' then path
      else join base path)).foldl resolve []) := resolved_foldl read_components
  rw [lexicalAbsolute, components_render h]
  exact h

/-- What is left of a resolved path below a base with a component is names, written as they are
    read. -/
theorem names_of_stripPrefix {path base relative : String} (h : Resolved (components path))
    (hbase : components base ≠ []) (hstrip : stripPrefix path base = some relative) :
    Names (components relative) ∧
      components path = components base ++ components relative := by
  rw [stripPrefix] at hstrip
  split at hstrip
  · next hstarts =>
    obtain ⟨rest, hrest⟩ := List.isPrefixOf_iff_prefix.mp hstarts
    have hnames : Names rest := by
      rw [← hrest] at h
      obtain ⟨c, base', hbase'⟩ := List.exists_cons_of_ne_nil hbase
      rw [hbase'] at h
      rcases h with h | ⟨names, heq, h⟩
      · exact h.sublist (List.sublist_append_right _ _)
      · obtain ⟨-, rfl⟩ := List.cons.inj heq
        exact h.sublist (List.sublist_append_right _ _)
    rw [← hrest, List.drop_left] at hstrip
    rw [← Option.some.inj hstrip, components_render (.inl hnames)]
    exact ⟨hnames, hrest.symm⟩
  · cases hstrip

end Paths
