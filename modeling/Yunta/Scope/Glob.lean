/-
  Scope globs: what a pattern's text says, and whether two patterns might select the same path.

  1. **Text** — a glob is its text.  `literal`, `prefixOf` and `suffixOf` read what the text promises
     of the paths it selects; `mightOverlap` compares the promises of two globs.  `exact` and `under`
     write the glob of one path and of one tree, and `wholeTree` reads a tree back.

  2. **Matching** — which paths a glob selects is `globset`'s to say: `selects` is its compiled
     matcher, and `Globset` what its documentation says of it, with `literal_separator` on.

  3. **Soundness** — two globs that select one path overlap, unless one is written as `**/` again
     and again and the other ends in a name: the first selects every path, and its text ends in a
     `/` (`mightOverlap_or_missed`).  Such a pair never overlaps (`mightOverlap_of_missed`).

  4. **A matcher** — `plainSelects` takes the promises of a glob's text for all it says, which is so
     of a glob whose one wildcard is a leading or closing `**`.
-/
import Mathlib.Data.List.DropRight
import Mathlib.Data.List.Infix
import Yunta.Events.Basics

set_option linter.unusedVariables false

namespace Yunta

/-! ## What the text says -/

/-- Where a wildcard starts. -/
def isWildcard (c : Char) : Bool := c = '*' || c = '?' || c = '[' || c = '{'

/-- A glob with no wildcard and no escape selects exactly its own text. -/
def literal (glob : ScopeGlob) : Option String :=
  if glob.toList.any fun c => isWildcard c || c = '\\' then none else some glob

/-- The text before the first wildcard.  An escape spells a character the text does not show, so a
    glob with one promises no prefix. -/
def prefixOf (glob : ScopeGlob) : List Char :=
  if glob.toList.contains '\\' then [] else glob.toList.takeWhile fun c => !isWildcard c

/-- Whether a character belongs to a class, to an alternation or to a wildcard other than `*`. -/
def opensOrCloses (c : Char) : Bool := c = '?' || c = '[' || c = ']' || c = '{' || c = '}'

/-- The text after the last `*`, or all of it. -/
def afterStar (glob : ScopeGlob) : List Char := glob.toList.rtakeWhile (· ≠ '*')

/-- The text after the last `*`.  Empty when a class or an alternation closes after that `*`, or
    when an escape makes the text unreadable. -/
def suffixOf (glob : ScopeGlob) : List Char :=
  if glob.toList.contains '\\' then []
  else if (afterStar glob).any opensOrCloses then []
  else afterStar glob

/-- Whether two globs might select the same file. -/
def mightOverlap (selects : ScopeGlob → String → Bool) (a b : ScopeGlob) : Bool :=
  match literal a, literal b with
  | some path, _ => selects b path
  | none, some path => selects a path
  | none, none =>
    ((prefixOf b).isPrefixOf (prefixOf a) || (prefixOf a).isPrefixOf (prefixOf b)) &&
      ((suffixOf b).isSuffixOf (suffixOf a) || (suffixOf a).isSuffixOf (suffixOf b))

/-- Whether `glob` might match a path one of `denied` matches. -/
def reachesAny (selects : ScopeGlob → String → Bool) (glob : ScopeGlob) (denied : List ScopeGlob) :
    Bool :=
  denied.any fun deny => mightOverlap selects glob deny

/-! ## Globs of one path and of one tree -/

/-- A character as glob text that selects only itself. -/
def spelled (c : Char) : List Char :=
  if opensOrCloses c || c = '*' then ['[', c, ']'] else if c = '\\' then ['\\', '\\'] else [c]

/-- `path` as glob text that selects only itself. -/
def literalText (path : String) : List Char := path.toList.flatMap spelled

/-- The pattern that selects exactly `path`. -/
def exact (path : String) : ScopeGlob := .ofList (literalText path)

/-- The pattern that selects every path under the directory `path`. -/
def under (path : String) : ScopeGlob := .ofList (literalText path ++ ['/', '*', '*'])

def stripSuffix (text back : List Char) : Option (List Char) :=
  if back.isSuffixOf text then some (text.take (text.length - back.length)) else none

/-- The directory the glob selects every path of, when its text is `dir/**` or `dir/**/*` with `dir`
    free of glob syntax. -/
def wholeTree (glob : ScopeGlob) : Option String :=
  (stripSuffix glob.toList ['/', '*', '*', '/', '*'] <|>
    stripSuffix glob.toList ['/', '*', '*']).bind fun dir =>
      if dir ≠ [] ∧ dir.all (fun c => !isWildcard c && c != '\\') then some (.ofList dir) else none

/-! ## What the matcher selects -/

/-- A text that is `**/` once or more, and nothing else. -/
def isRecursion : List Char → Bool
  | '*' :: '*' :: '/' :: rest => rest.isEmpty || isRecursion rest
  | _ => false

/-- A glob that is nothing but `**/`. -/
def Recursion (glob : ScopeGlob) : Prop := isRecursion glob.toList = true

instance (glob : ScopeGlob) : Decidable (Recursion glob) := inferInstanceAs (Decidable (_ = _))

/-- What `globset` documents of the matcher of one glob, compiled with `literal_separator`. -/
structure Globset (selects : ScopeGlob → String → Bool) : Prop where
  /-- A character that is no syntax matches itself. -/
  literal : ∀ glob path, (∀ c ∈ glob.toList, isWildcard c = false ∧ c ≠ '\\') →
    (selects glob path = true ↔ path = glob)
  /-- So does the text in front of all syntax. -/
  starts : ∀ (front back : List Char) (glob : ScopeGlob) (path : String),
    glob.toList = front ++ back → '\\' ∉ glob.toList → (∀ c ∈ front, isWildcard c = false) →
    selects glob path = true → front <+: path.toList
  /-- So does the text behind a `*` and all other syntax, except that a `**/` matches no directory as
      well as any number of them: the text behind it may be all of the path. -/
  ends : ∀ (front back : List Char) (glob : ScopeGlob) (path : String),
    glob.toList = front ++ '*' :: back → '\\' ∉ glob.toList →
    (∀ c ∈ back, c ≠ '*' ∧ opensOrCloses c = false) → ¬ Recursion glob →
    selects glob path = true → back <:+ '/' :: path.toList
  /-- A glob that is nothing but `**/` matches everything, as `**` does. -/
  everything : ∀ glob path, Recursion glob → selects glob path = true

/-- The matcher that takes the promises of a glob's text for all it says. -/
def plainSelects (glob : ScopeGlob) (path : String) : Bool :=
  match literal glob with
  | some text => path = text
  | none =>
    isRecursion glob.toList ||
      ((prefixOf glob).isPrefixOf path.toList && (suffixOf glob).isSuffixOf ('/' :: path.toList))

/-! ## Soundness -/

variable {selects : ScopeGlob → String → Bool} {a b glob : ScopeGlob} {path : String}

theorem literal_eq_some {text : String} (h : literal glob = some text) :
    text = glob ∧ ∀ c ∈ glob.toList, isWildcard c = false ∧ c ≠ '\\' := by
  unfold literal at h
  split at h
  · cases h
  · next hplain =>
    cases h
    refine ⟨rfl, fun c hc => ?_⟩
    simp only [List.any_eq_true, not_exists, not_and, Bool.or_eq_true, not_or] at hplain
    have := hplain c hc
    exact ⟨by simpa using this.1, by simpa using this.2⟩

/-- A path a glob selects starts with the text before the glob's first wildcard. -/
theorem prefixOf_path (h : Globset selects) (hselects : selects glob path = true) :
    prefixOf glob <+: path.toList := by
  unfold prefixOf
  split
  · exact List.nil_prefix
  · next hescape =>
    refine h.starts _ (glob.toList.dropWhile fun c => !isWildcard c) glob path
      (List.takeWhile_append_dropWhile).symm (by simpa using hescape) ?_ hselects
    intro c hc
    simpa using List.mem_takeWhile_imp hc

/-- A glob all of whose text stands behind its last `*` has no `*`. -/
theorem literal_of_afterStar (hescape : '\\' ∉ glob.toList)
    (hplain : ∀ c ∈ glob.toList, c ≠ '*' ∧ opensOrCloses c = false) :
    literal glob = some glob := by
  refine if_neg ?_
  simp only [List.any_eq_true, not_exists, not_and]
  intro c hc
  obtain ⟨hstar, hclass⟩ := hplain c hc
  have hne : c ≠ '\\' := fun h => hescape (h ▸ hc)
  simp only [opensOrCloses, Bool.or_eq_false_iff, decide_eq_false_iff_not] at hclass
  simp [isWildcard, hstar, hne, hclass]

/-- A wildcard glob with a suffix has a `*` in front of it. -/
theorem star_of_suffixOf (hwild : literal glob = none) (hsuffix : suffixOf glob ≠ []) :
    ∃ front, glob.toList = front ++ '*' :: suffixOf glob ∧ '\\' ∉ glob.toList ∧
      ∀ c ∈ suffixOf glob, c ≠ '*' ∧ opensOrCloses c = false := by
  by_cases hescape : '\\' ∈ glob.toList
  · exact absurd (if_pos (by simpa using hescape)) hsuffix
  have hafter : suffixOf glob = if (afterStar glob).any opensOrCloses then [] else afterStar glob :=
    if_neg (by simpa using hescape)
  by_cases hclass : (afterStar glob).any opensOrCloses = true
  · exact absurd (hafter.trans (if_pos hclass)) hsuffix
  rw [hafter.trans (if_neg hclass)]
  have hplain : ∀ c ∈ afterStar glob, c ≠ '*' ∧ opensOrCloses c = false := by
    intro c hc
    refine ⟨by simpa using List.mem_rtakeWhile_imp hc, ?_⟩
    simp only [List.any_eq_true, not_exists, not_and, Bool.not_eq_true] at hclass
    exact hclass c hc
  have hjoin : glob.toList.rdropWhile (· ≠ '*') ++ afterStar glob = glob.toList :=
    List.rdropWhile_append_rtakeWhile
  refine ⟨(glob.toList.rdropWhile (· ≠ '*')).dropLast, ?_, hescape, hplain⟩
  by_cases hnil : glob.toList.rdropWhile (· ≠ '*') = []
  · rw [hnil, List.nil_append] at hjoin
    rw [literal_of_afterStar hescape (hjoin ▸ hplain)] at hwild
    cases hwild
  · have hlast : (glob.toList.rdropWhile (· ≠ '*')).getLast hnil = '*' := by
      simpa using List.rdropWhile_last_not (fun c : Char => decide (c ≠ '*')) _ hnil
    have hdrop := List.dropLast_append_getLast hnil
    rw [hlast] at hdrop
    calc glob.toList
        = glob.toList.rdropWhile (· ≠ '*') ++ afterStar glob := hjoin.symm
      _ = ((glob.toList.rdropWhile (· ≠ '*')).dropLast ++ ['*']) ++ afterStar glob := by rw [hdrop]
      _ = _ := by simp

/-- A path a wildcard glob selects, with a `/` in front of it, ends with the text behind the glob's
    last `*`. -/
theorem suffixOf_path (h : Globset selects) (hwild : literal glob = none)
    (hrec : ¬ Recursion glob) (hselects : selects glob path = true) :
    suffixOf glob <:+ '/' :: path.toList := by
  by_cases hsuffix : suffixOf glob = []
  · rw [hsuffix]
    exact List.nil_suffix
  · obtain ⟨front, hglob, hescape, hafter⟩ := star_of_suffixOf hwild hsuffix
    exact h.ends front _ glob path hglob hescape hafter hrec hselects

/-- Two globs that select one path overlap, where neither is nothing but `**/`. -/
theorem mightOverlap_of_common (h : Globset selects) (ha : ¬ Recursion a) (hb : ¬ Recursion b)
    (hpa : selects a path = true) (hpb : selects b path = true) :
    mightOverlap selects a b = true := by
  unfold mightOverlap
  cases hla : literal a with
  | some text =>
    obtain ⟨rfl, hplain⟩ := literal_eq_some hla
    rw [(h.literal _ _ hplain).mp hpa] at hpb
    exact hpb
  | none =>
    cases hlb : literal b with
    | some text =>
      obtain ⟨rfl, hplain⟩ := literal_eq_some hlb
      rw [(h.literal _ _ hplain).mp hpb] at hpa
      exact hpa
    | none =>
      have hstart := List.prefix_or_prefix_of_prefix (prefixOf_path h hpb) (prefixOf_path h hpa)
      have hsuffix := List.suffix_or_suffix_of_suffix (suffixOf_path h hlb hb hpb)
        (suffixOf_path h hla ha hpa)
      simp only [Bool.and_eq_true, Bool.or_eq_true, List.isPrefixOf_iff_prefix,
        List.isSuffixOf_iff_suffix]
      exact ⟨hstart, hsuffix⟩

theorem mightOverlap_comm (h : Globset selects) :
    mightOverlap selects a b = mightOverlap selects b a := by
  unfold mightOverlap
  cases hla : literal a with
  | some x =>
    cases hlb : literal b with
    | some y =>
      obtain ⟨rfl, hx⟩ := literal_eq_some hla
      obtain ⟨rfl, hy⟩ := literal_eq_some hlb
      exact Bool.eq_iff_iff.mpr ((h.literal _ _ hy).trans (eq_comm.trans (h.literal _ _ hx).symm))
    | none => rfl
  | none =>
    cases hlb : literal b with
    | some y => rfl
    | none =>
      refine congrArg₂ (· && ·) ?_ ?_ <;> exact Bool.or_comm _ _

/-! ## The pairs overlap misses -/

/-- A wildcard glob whose last `*` stands in front of a name or of its end: `src/*.rs`. -/
def EndsInName (glob : ScopeGlob) : Prop :=
  literal glob = none ∧ ¬ suffixOf glob <:+ ['/'] ∧ ¬ ['/'] <:+ suffixOf glob

/-- One glob is nothing but `**/`, and the other ends in a name. -/
def Missed (a b : ScopeGlob) : Prop :=
  Recursion a ∧ EndsInName b ∨ Recursion b ∧ EndsInName a

instance : Decidable (EndsInName glob) := inferInstanceAs (Decidable (_ ∧ _ ∧ _))

instance : Decidable (Missed a b) := inferInstanceAs (Decidable (_ ∨ _))

/-- A recursion starts with a `*`. -/
theorem star_of_isRecursion {text : List Char} (h : isRecursion text = true) :
    ∃ rest, text = '*' :: rest := by
  unfold isRecursion at h
  split at h
  · exact ⟨_, rfl⟩
  · cases h

/-- A recursion ends in a `*` and a `/`, and holds nothing else. -/
theorem text_of_isRecursion (text : List Char) (h : isRecursion text = true) :
    (∃ front, text = front ++ ['*', '/']) ∧ ∀ c ∈ text, c = '*' ∨ c = '/' := by
  fun_induction isRecursion text with
  | case1 rest ih =>
    cases rest with
    | nil => exact ⟨⟨['*'], rfl⟩, by simp⟩
    | cons c rest =>
      obtain ⟨⟨front, hfront⟩, hmem⟩ := ih (by simpa using h)
      exact ⟨⟨'*' :: '*' :: '/' :: front, by simp [hfront]⟩, by simpa using hmem⟩
  | case2 => cases h

/-- Text behind a `*` and all other syntax is the text behind the last `*`. -/
theorem back_suffixOf {front back : List Char} (hglob : glob.toList = front ++ '*' :: back)
    (hescape : '\\' ∉ glob.toList) (hback : ∀ c ∈ back, c ≠ '*' ∧ opensOrCloses c = false) :
    suffixOf glob = back := by
  have hafter : afterStar glob = back := by
    have hrev : (∀ c ∈ back.reverse, decide (c ≠ '*') = true) := by
      intro c hc
      simpa using (hback c (List.mem_reverse.mp hc)).1
    rw [afterStar, List.rtakeWhile, hglob, List.reverse_append, List.reverse_cons,
      List.append_assoc, List.takeWhile_append_of_pos hrev]
    simp
  rw [suffixOf, if_neg (by simpa using hescape), hafter, if_neg]
  simp only [List.any_eq_true, not_exists, not_and, Bool.not_eq_true]
  exact fun c hc => (hback c hc).2

/-- A glob with a wildcard or an escape is no literal. -/
theorem literal_eq_none {c : Char} (hc : c ∈ glob.toList) (h : isWildcard c = true ∨ c = '\\') :
    literal glob = none :=
  if_pos (List.any_eq_true.mpr ⟨c, hc, by simpa using h⟩)

theorem Recursion.texts (ha : Recursion a) :
    literal a = none ∧ prefixOf a = [] ∧ suffixOf a = ['/'] := by
  obtain ⟨rest, hrest⟩ := star_of_isRecursion ha
  obtain ⟨⟨front, hfront⟩, hmem⟩ := text_of_isRecursion _ ha
  have hescape : '\\' ∉ a.toList := by
    intro h
    rcases hmem _ h with h | h <;> cases h
  refine ⟨literal_eq_none (c := '*') (by simp [hrest]) (.inl rfl), ?_,
    back_suffixOf hfront hescape (by simp [opensOrCloses])⟩
  rw [prefixOf, if_neg (by simpa using hescape), hrest]
  rfl

/-- A recursion overlaps every glob but one that ends in a name. -/
theorem mightOverlap_of_recursion (h : Globset selects) (ha : Recursion a) :
    mightOverlap selects a b = false ↔ EndsInName b := by
  obtain ⟨hlit, hstart, hsuffix⟩ := ha.texts
  unfold mightOverlap EndsInName
  rw [hlit]
  cases hlb : literal b with
  | some path => simp [h.everything a path ha]
  | none =>
    simp only [hstart, hsuffix, List.isPrefixOf_nil_left, Bool.or_true, Bool.true_and,
      ← Bool.not_eq_true, Bool.or_eq_true, not_or, List.isSuffixOf_iff_suffix, true_and]

/-- **Overlap misses a recursion and a name**, though the recursion selects all the other does. -/
theorem mightOverlap_of_missed (h : Globset selects) (hmissed : Missed a b) :
    mightOverlap selects a b = false := by
  rcases hmissed with ⟨ha, hb⟩ | ⟨hb, ha⟩
  · exact (mightOverlap_of_recursion h ha).mpr hb
  · rw [mightOverlap_comm h]
    exact (mightOverlap_of_recursion h hb).mpr ha

/-- **And misses no other pair**: two globs that select one path overlap, or are such a pair. -/
theorem mightOverlap_or_missed (h : Globset selects) (hpa : selects a path = true)
    (hpb : selects b path = true) : mightOverlap selects a b = true ∨ Missed a b := by
  cases hoverlap : mightOverlap selects a b with
  | true => exact .inl rfl
  | false =>
    refine .inr ?_
    by_cases ha : Recursion a
    · exact .inl ⟨ha, (mightOverlap_of_recursion h ha).mp hoverlap⟩
    by_cases hb : Recursion b
    · rw [mightOverlap_comm h] at hoverlap
      exact .inr ⟨hb, (mightOverlap_of_recursion h hb).mp hoverlap⟩
    · rw [mightOverlap_of_common h ha hb hpa hpb] at hoverlap
      cases hoverlap

/-! ## The plain matcher -/

/-- Text in front of all syntax is in front of the first wildcard. -/
theorem front_prefixOf {front back : List Char} (hglob : glob.toList = front ++ back)
    (hescape : '\\' ∉ glob.toList) (hfront : ∀ c ∈ front, isWildcard c = false) :
    front <+: prefixOf glob := by
  rw [prefixOf, if_neg (by simpa using hescape), hglob,
    List.takeWhile_append_of_pos (by simpa using hfront)]
  exact List.prefix_append _ _

/-- The plain matcher is one `globset` could document. -/
theorem plainSelects_globset : Globset plainSelects where
  literal glob path hplain := by
    have hlit : literal glob = some glob := by
      refine if_neg ?_
      simp only [List.any_eq_true, not_exists, not_and]
      intro c hc
      simp [(hplain c hc).1, (hplain c hc).2]
    simp [plainSelects, hlit]
  starts front back glob path hglob hescape hfront hselects := by
    unfold plainSelects at hselects
    cases hlit : literal glob with
    | some text =>
      rw [hlit] at hselects
      obtain ⟨rfl, -⟩ := literal_eq_some hlit
      rw [of_decide_eq_true hselects, hglob]
      exact List.prefix_append _ _
    | none =>
      rw [hlit] at hselects
      simp only [Bool.or_eq_true, Bool.and_eq_true, List.isPrefixOf_iff_prefix] at hselects
      rcases hselects with hrec | ⟨hstart, -⟩
      · -- nothing stands in front of the first `*` of a recursion
        obtain ⟨rest, hrest⟩ := star_of_isRecursion hrec
        cases front with
        | nil => exact List.nil_prefix
        | cons c front =>
          rw [hrest, List.cons_append] at hglob
          have hc := hfront c List.mem_cons_self
          rw [← (List.cons.inj hglob).1] at hc
          cases hc
      · exact (front_prefixOf hglob hescape hfront).trans hstart
  ends front back glob path hglob hescape hback hrec hselects := by
    have hlit : literal glob = none := literal_eq_none
      (hglob ▸ List.mem_append_right _ List.mem_cons_self) (.inl rfl)
    unfold plainSelects at hselects
    rw [hlit] at hselects
    simp only [Bool.or_eq_true, Bool.and_eq_true, List.isSuffixOf_iff_suffix] at hselects
    rcases hselects with h | ⟨-, hsuffix⟩
    · exact absurd h hrec
    · rwa [back_suffixOf hglob hescape hback] at hsuffix
  everything glob path hrec := by
    obtain ⟨rest, hrest⟩ := star_of_isRecursion hrec
    have hstar : '*' ∈ glob.toList := hrest ▸ List.mem_cons_self
    unfold plainSelects
    rw [literal_eq_none hstar (.inl rfl)]
    show (isRecursion glob.toList || _) = true
    rw [show isRecursion glob.toList = true from hrec]
    rfl

end Yunta
