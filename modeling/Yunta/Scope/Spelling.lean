/-
  Globs that spell a path out, and the paths they select.

  1. **Paths** — a path of the checkout is its names; `joined` is the text a glob is matched with,
     and tells paths apart (`joined_inj`).

  2. **Spelling** — `spells` reads the characters a glob's text spells out, one by one, plain, in a
     class of their own or behind a backslash.  `exact` and `under` spell the path they are made
     from (`spells_literalText`).

  3. **Matching** — `PathGlobs` is what `globset` documents of a glob that spells a path, of one
     that spells a directory and ends in `/**`, and of one that spells a name behind `**/`.  So
     `exact` selects its path, `under` the paths below its directory, `**/NAME` the paths of that
     name, and `wholeTree` reads back from `under` a directory with no syntax in it.
-/
import Yunta.Lib.Paths
import Yunta.Scope.Glob

set_option linter.unusedVariables false

namespace Yunta

/-! ## Paths -/

/-- A path of the checkout, by its names. -/
abbrev Path := List String

/-- A path as the text a glob is matched with. -/
def joined (path : Path) : String := "/".intercalate path

/-- A name git keeps an entry under. -/
def IsName (name : String) : Prop := name ≠ "" ∧ name ≠ "." ∧ name ≠ ".." ∧ '/' ∉ name.toList

instance (name : String) : Decidable (IsName name) := inferInstanceAs (Decidable (_ ∧ _ ∧ _ ∧ _))

/-- A path below the root of the checkout. -/
structure IsPath (path : Path) : Prop where
  ne_nil : path ≠ []
  named : ∀ name ∈ path, IsName name

/-- A component that may stand anywhere in a path. -/
def IsStep (name : String) : Prop := name ≠ "" ∧ name ≠ "." ∧ '/' ∉ name.toList

theorem IsName.step {name : String} (h : IsName name) : IsStep name := ⟨h.1, h.2.1, h.2.2.2⟩

/-- A component by its text. -/
def componentText : Paths.Component → String
  | .root => "/"
  | .cur => "."
  | .parent => ".."
  | .name text => .ofList text

/-- A path's components, each by its text. -/
def componentsOf (path : String) : Path := (Paths.components path).map componentText

instance (path : Path) : Decidable (IsPath path) :=
  decidable_of_iff (path ≠ [] ∧ ∀ name ∈ path, IsName name)
    ⟨fun h => ⟨h.1, h.2⟩, fun h => ⟨h.ne_nil, h.named⟩⟩

section
variable {path other : Path}

theorem IsPath.append (h : IsPath path) {names : List String} (hnames : ∀ name ∈ names, IsName name) :
    IsPath (path ++ names) where
  ne_nil := by
    intro hnil
    exact h.ne_nil (List.append_eq_nil_iff.mp hnil).1
  named name hname := (List.mem_append.mp hname).elim (h.named name) (hnames name)

theorem toList_joined (path : Path) :
    (joined path).toList = ['/'].intercalate (path.map String.toList) := by
  simp [joined]

theorem joined_append (hpath : path ≠ []) {more : Path} (hmore : more ≠ []) :
    (joined (path ++ more)).toList = (joined path).toList ++ '/' :: (joined more).toList := by
  rw [joined, String.intercalate_append_of_ne_nil hpath hmore]
  simp [joined]

/-- The names of a path are what stands between the `/` of its text. -/
theorem splitOn_joined_steps (hne : path ≠ []) (h : ∀ name ∈ path, IsStep name) :
    (joined path).toList.splitOn '/' = path.map String.toList := by
  rw [toList_joined, List.splitOn_intercalate '/' ?_ (by simpa using hne)]
  intro l hl
  obtain ⟨name, hname, rfl⟩ := List.mem_map.mp hl
  exact (h name hname).2.2

theorem IsPath.steps (h : IsPath path) : ∀ name ∈ path, IsStep name := fun name hname =>
  (h.named name hname).step

theorem splitOn_joined (h : IsPath path) :
    (joined path).toList.splitOn '/' = path.map String.toList :=
  splitOn_joined_steps h.ne_nil h.steps

/-- **The text of a path tells it apart.** -/
theorem joined_inj (h : IsPath path) (hother : IsPath other)
    (heq : (joined path).toList = (joined other).toList) : path = other := by
  have hmap := congrArg (List.splitOn '/') heq
  rw [splitOn_joined h, splitOn_joined hother] at hmap
  exact List.map_injective_iff.mpr (fun a b hab => String.toList_inj.mp hab) hmap

/-- A piece of a path's text keeps its text. -/
theorem componentText_piece (text : List Char) : componentText (Paths.piece text) = .ofList text := by
  unfold Paths.piece
  split_ifs with hparent
  · rw [hparent]
    rfl
  · rfl

/-- A path's text is read back as its components. -/
theorem componentsOf_joined (hne : path ≠ []) (h : ∀ name ∈ path, IsStep name) :
    componentsOf (joined path) = path := by
  have hsplit := splitOn_joined_steps hne h
  have hopening : Paths.opening (joined path).toList = [] := by
    obtain ⟨first, rest, rfl⟩ := List.exists_cons_of_ne_nil hne
    obtain ⟨hnone, hdot, hslash⟩ := h first List.mem_cons_self
    unfold Paths.opening
    rw [if_neg, if_neg]
    · rw [hsplit]
      intro hhead
      exact hdot (String.toList_inj.mp (Option.some.inj hhead))
    · -- A text that opens with a separator has nothing before it.
      intro hhead
      obtain ⟨tail, htail⟩ := List.head?_eq_some_iff.mp hhead
      rw [htail, show '/' :: tail = [] ++ '/' :: tail from rfl, List.splitOn_append_cons_self,
        List.splitOn_nil, List.map_cons] at hsplit
      exact hnone (String.toList_inj.mp (List.cons.inj hsplit).1.symm)
  rw [componentsOf, Paths.components, hopening, hsplit, List.nil_append, List.filter_eq_self.mpr ?_,
    List.map_map, List.map_map]
  · conv_rhs => rw [← List.map_id path]
    refine List.map_congr_left fun name _ => ?_
    show componentText (Paths.piece name.toList) = name
    rw [componentText_piece, String.ofList_toList]
  · intro part hpart
    obtain ⟨name, hname, rfl⟩ := List.mem_map.mp hpart
    obtain ⟨hnone, hdot, -⟩ := h name hname
    have hcur : name.toList ≠ ['.'] := fun hcur => hdot (String.toList_inj.mp hcur)
    simpa using ⟨hnone, hcur⟩

/-- What stands behind a path in the components of a text may stand anywhere. -/
theorem steps_behind {text : String} {rest : Path} (h : IsPath path)
    (hbehind : componentsOf text = path ++ rest) : ∀ name ∈ rest, IsStep name := by
  have hpieces : ∀ part ∈ (text.toList.splitOn '/').filter (fun part => part ≠ [] ∧ part ≠ ['.']),
      IsStep (componentText (Paths.piece part)) := by
    intro part hpart
    obtain ⟨hmem, hkept⟩ := List.mem_filter.mp hpart
    obtain ⟨hnil, hcur⟩ : part ≠ [] ∧ part ≠ ['.'] := by simpa using hkept
    rw [componentText_piece]
    refine ⟨fun h => hnil ?_, fun h => hcur ?_, ?_⟩
    · rw [← String.toList_ofList (l := part), h]
      rfl
    · rw [← String.toList_ofList (l := part), h]
      rfl
    · rw [String.toList_ofList]
      exact Text.not_mem_of_mem_splitOn hmem
  obtain ⟨first, names, rfl⟩ := List.exists_cons_of_ne_nil h.ne_nil
  have hfirst := h.named first List.mem_cons_self
  rw [componentsOf, Paths.components, List.map_append, Paths.opening] at hbehind
  split_ifs at hbehind
  · -- A root is no name.
    have hroot : "/" = first := (List.cons.inj hbehind).1
    exact absurd hfirst (by rw [← hroot]; decide +kernel)
  · have hcur : "." = first := (List.cons.inj hbehind).1
    exact absurd hcur.symm hfirst.2.1
  · intro name hname
    have hmem : name ∈ first :: names ++ rest := List.mem_append_right _ hname
    rw [← hbehind, List.map_nil, List.nil_append, List.map_map] at hmem
    obtain ⟨part, hpart, rfl⟩ := List.mem_map.mp hmem
    exact hpieces part hpart

/-- The text of a directory and a `/` start the text of a path below it. -/
theorem below_iff (h : IsPath path) (hother : IsPath other) :
    (joined path).toList ++ ['/'] <+: (joined other).toList ↔
      ∃ rest, rest ≠ [] ∧ other = path ++ rest := by
  constructor
  · rintro ⟨tail, htail⟩
    rw [List.append_assoc, List.singleton_append] at htail
    have hsplit := congrArg (List.splitOn '/') htail
    rw [List.splitOn_append_cons_self, splitOn_joined h, splitOn_joined hother] at hsplit
    refine ⟨(tail.splitOn '/').map String.ofList, by simp, ?_⟩
    have hback := congrArg (List.map String.ofList) hsplit.symm
    simpa [List.map_append, List.map_map, Function.comp_def] using hback
  · rintro ⟨rest, hrest, rfl⟩
    rw [joined_append h.ne_nil hrest]
    exact ⟨(joined rest).toList, by simp⟩

/-- A path has a name last exactly when its text is the name, or ends in a `/` and the name. -/
theorem last_iff (h : IsPath path) {name : String} (hname : '/' ∉ name.toList) :
    ((joined path).toList = name.toList ∨ '/' :: name.toList <:+ (joined path).toList) ↔
      path.getLast? = some name := by
  rw [List.getLast?_eq_some_iff]
  constructor
  · rintro (heq | ⟨front, hfront⟩)
    · have hsplit := congrArg (List.splitOn '/') heq
      rw [splitOn_joined h, List.splitOn_eq_singleton hname] at hsplit
      obtain ⟨only, rfl, honly⟩ := List.map_eq_singleton_iff.mp hsplit
      exact ⟨[], by rw [String.toList_inj.mp honly]; rfl⟩
    · have hsplit := congrArg (List.splitOn '/') hfront
      rw [List.splitOn_append_cons_self, splitOn_joined h, List.splitOn_eq_singleton hname] at hsplit
      have hback := congrArg (List.map String.ofList) hsplit.symm
      refine ⟨(front.splitOn '/').map String.ofList, ?_⟩
      simpa [List.map_append, List.map_map, Function.comp_def] using hback
  · rintro ⟨init, rfl⟩
    by_cases hinit : init = []
    · subst hinit
      exact .inl (by simp [joined])
    · refine .inr ?_
      rw [joined_append hinit (List.cons_ne_nil _ _)]
      simp [joined]

end

/-! ## Spelling -/

/-- The characters a text spells out, when it holds no other syntax. -/
def spells : List Char → Option (List Char)
  | [] => some []
  | '[' :: c :: ']' :: rest =>
    if opensOrCloses c || c = '*' then (spells rest).map (c :: ·) else none
  | '\\' :: c :: rest => (spells rest).map (c :: ·)
  | c :: rest =>
    if opensOrCloses c || c = '*' || c = '\\' then none else (spells rest).map (c :: ·)

theorem spells_spelled (c : Char) (rest : List Char) :
    spells (spelled c ++ rest) = (spells rest).map (c :: ·) := by
  unfold spelled
  split
  · next hspecial => simp [spells, hspecial]
  · next hspecial =>
    split
    · next hescape =>
      subst hescape
      simp [spells]
    · next hescape =>
      have hclass : c ≠ '[' := by
        rintro rfl
        exact hspecial rfl
      simp only [List.singleton_append]
      rw [spells, if_neg]
      · simpa [hescape] using hspecial
      · rintro d more rfl
        exact absurd rfl hclass
      · rintro d more rfl
        exact absurd rfl hescape

/-- What stands behind a path's literal text is spelled behind the path. -/
theorem spells_append (text : List Char) (rest : List Char) :
    spells (text.flatMap spelled ++ rest) = (spells rest).map (text ++ ·) := by
  induction text with
  | nil => simp
  | cons c text ih =>
    rw [List.flatMap_cons, List.append_assoc, spells_spelled, ih, Option.map_map]
    rfl

/-- **A path's literal text spells the path.** -/
theorem spells_literalText (path : String) : spells (literalText path) = some path.toList := by
  have := spells_append path.toList []
  rw [List.append_nil] at this
  rw [literalText, this]
  simp [spells]

/-- A text that ends in a star no backslash stands before is not spelled out. -/
theorem spells_star (text : List Char) {d : Char} (hd : d ≠ '\\') :
    spells (text ++ [d, '*']) = none := by
  generalize hwhole : text ++ [d, '*'] = whole
  fun_induction spells whole generalizing text with
  | case1 => simp at hwhole
  | case2 c rest hspecial ih =>
    rcases text with _ | ⟨_, _ | ⟨_, _ | ⟨_, text⟩⟩⟩ <;> simp at hwhole
    · rw [← hwhole.2.2.2]
      rfl
    · rw [ih text hwhole.2.2.2, Option.map_none]
  | case3 c rest hspecial => rfl
  | case4 c rest ih =>
    rcases text with _ | ⟨_, _ | ⟨_, text⟩⟩ <;> simp at hwhole
    · exact absurd hwhole.1 hd
    · -- the character before is escaped, and the star stands alone
      rw [← hwhole.2.2]
      rfl
    · rw [ih text hwhole.2.2, Option.map_none]
  | case5 c rest h1 h2 hspecial => rfl
  | case6 c rest h1 h2 hspecial ih =>
    rcases text with _ | ⟨_, text⟩ <;> simp at hwhole
    · rw [← hwhole.2]
      rfl
    · rw [ih text hwhole.2, Option.map_none]

/-! ## Matching -/

/-- What `globset` documents of a glob that spells a path, a directory or a name. -/
structure PathGlobs (selects : ScopeGlob → String → Bool) : Prop where
  /-- Spelled characters match themselves. -/
  path : ∀ glob text path, spells glob.toList = some text →
    (selects glob path = true ↔ path.toList = text)
  /-- A closing `/**` matches all paths below a directory. -/
  tree : ∀ glob front text path, glob.toList = front ++ ['/', '*', '*'] →
    spells front = some text → text ≠ [] →
    (selects glob path = true ↔ text ++ ['/'] <+: path.toList)
  /-- A leading `**/` matches no directory as well as any number of them. -/
  name : ∀ glob back text path, glob.toList = '*' :: '*' :: '/' :: back →
    spells back = some text → text ≠ [] → '/' ∉ text →
    (selects glob path = true ↔ path.toList = text ∨ '/' :: text <:+ path.toList)

section
variable {selects : ScopeGlob → String → Bool} {path other : Path}

theorem joined_ne_nil (h : IsPath path) : (joined path).toList ≠ [] := by
  intro hnil
  have hsplit := splitOn_joined h
  rw [hnil, List.splitOn_nil] at hsplit
  obtain ⟨name, rfl, hname⟩ := List.map_eq_singleton_iff.mp hsplit.symm
  exact (h.named name List.mem_cons_self).1 (String.toList_inj.mp hname)

/-- **`exact` selects its path alone.** -/
theorem exact_iff (hglob : PathGlobs selects) (h : IsPath path) (hother : IsPath other) :
    selects (exact (joined path)) (joined other) = true ↔ other = path := by
  rw [hglob.path _ (joined path).toList _ (by rw [exact, String.toList_ofList, spells_literalText])]
  exact ⟨joined_inj hother h, fun heq => by rw [heq]⟩

/-- **`under` selects the paths below its directory.** -/
theorem under_iff (hglob : PathGlobs selects) (h : IsPath path) (hother : IsPath other) :
    selects (under (joined path)) (joined other) = true ↔
      ∃ rest, rest ≠ [] ∧ other = path ++ rest := by
  rw [hglob.tree _ (literalText (joined path)) (joined path).toList _
    (by rw [under, String.toList_ofList]) (spells_literalText _) (joined_ne_nil h)]
  exact below_iff h hother

/-- The instruction files of every directory. -/
def instructionGlobs : List ScopeGlob := ["**/AGENTS.md", "**/CLAUDE.md"]

/-- **An instruction glob selects the paths of one name.** -/
theorem instruction_iff (hglob : PathGlobs selects) {glob : ScopeGlob}
    (hmem : glob ∈ instructionGlobs) :
    ∃ name, ∀ path, IsPath path → (selects glob (joined path) = true ↔
      path.getLast? = some name) := by
  simp only [instructionGlobs, List.mem_cons, List.not_mem_nil, or_false] at hmem
  rcases hmem with rfl | rfl
  · refine ⟨"AGENTS.md", fun path h => ?_⟩
    rw [hglob.name "**/AGENTS.md" "AGENTS.md".toList "AGENTS.md".toList _ (by decide +kernel)
      (by decide +kernel) (by decide +kernel) (by decide +kernel)]
    exact last_iff h (by decide +kernel)
  · refine ⟨"CLAUDE.md", fun path h => ?_⟩
    rw [hglob.name "**/CLAUDE.md" "CLAUDE.md".toList "CLAUDE.md".toList _ (by decide +kernel)
      (by decide +kernel) (by decide +kernel) (by decide +kernel)]
    exact last_iff h (by decide +kernel)

end

/-! ## Trees -/

/-- A text with no glob syntax in it. -/
def PlainText (text : String) : Prop :=
  ∀ c ∈ text.toList, opensOrCloses c = false ∧ c ≠ '*' ∧ c ≠ '\\'

instance (text : String) : Decidable (PlainText text) := List.decidableBAll _ _

/-- Only a text with no syntax is its own literal text, free of syntax. -/
theorem literalText_plain {text : String} :
    ((literalText text).all fun c => !isWildcard c && c != '\\') = true ↔ PlainText text := by
  unfold literalText PlainText
  induction text.toList with
  | nil => simp
  | cons c rest ih =>
    rw [List.flatMap_cons, List.all_append, Bool.and_eq_true, ih, List.forall_mem_cons]
    refine and_congr_left fun _ => ?_
    unfold spelled
    split
    · next hspecial =>
      -- a class of its own opens with a `[`
      constructor
      · intro h
        simp [isWildcard] at h
      · rintro ⟨hclass, hstar, -⟩
        simp [hclass, hstar] at hspecial
    · next hspecial =>
      simp only [Bool.or_eq_true, decide_eq_true_eq, not_or, Bool.not_eq_true] at hspecial
      split
      · next hescape => simp [hescape]
      · next hescape =>
        have hwild : isWildcard c = false := by
          simp only [opensOrCloses, Bool.or_eq_false_iff, decide_eq_false_iff_not] at hspecial
          simp [isWildcard, hspecial]
        simp [hwild, hescape, hspecial]

theorem stripSuffix_append (front back : List Char) :
    stripSuffix (front ++ back) back = some front := by
  rw [stripSuffix, if_pos (List.isSuffixOf_iff_suffix.mpr (List.suffix_append _ _))]
  simp

/-- The literal text of a plain path is the path. -/
theorem literalText_eq {text : String} (h : PlainText text) : literalText text = text.toList := by
  have hspelled : ∀ c ∈ text.toList, spelled c = [c] := by
    intro c hc
    obtain ⟨hclass, hstar, hescape⟩ := h c hc
    simp [spelled, hclass, hstar, hescape]
  rw [literalText, List.flatMap_congr hspelled]
  exact List.flatMap_singleton' _

theorem literalText_ne_nil {text : String} (hne : text ≠ "") : literalText text ≠ [] := by
  intro hnil
  have hspells := spells_literalText text
  rw [hnil] at hspells
  exact hne (String.toList_inj.mp (Option.some.inj hspells).symm)

/-- **What `wholeTree` reads of `under`**: its directory, where that holds no syntax. -/
theorem wholeTree_under {text tree : String} (hne : text ≠ "") :
    wholeTree (under text) = some tree ↔ PlainText text ∧ tree = text := by
  have hfirst : stripSuffix (under text).toList ['/', '*', '*', '/', '*'] = none := by
    refine if_neg fun h => ?_
    obtain ⟨front, hfront⟩ := List.isSuffixOf_iff_suffix.mp h
    rw [under, String.toList_ofList] at hfront
    have hrev := congrArg List.reverse hfront
    simp at hrev
  have hsecond : stripSuffix (under text).toList ['/', '*', '*'] = some (literalText text) := by
    rw [under, String.toList_ofList, stripSuffix_append]
  rw [wholeTree, hfirst, hsecond]
  show (if literalText text ≠ [] ∧ _ then some (String.ofList (literalText text)) else none) =
    some tree ↔ _
  split
  · next h =>
    have hplain := literalText_plain.mp h.2
    rw [literalText_eq hplain, String.ofList_toList, Option.some.injEq]
    exact ⟨fun heq => ⟨hplain, heq.symm⟩, fun heq => heq.2.symm⟩
  · next h =>
    constructor
    · intro hnone
      cases hnone
    · rintro ⟨hplain, -⟩
      exact absurd ⟨literalText_ne_nil hne, literalText_plain.mpr hplain⟩ h

/-- A text spelled out ends in no star of its own, so `exact` is never a tree. -/
theorem wholeTree_exact (text : String) : wholeTree (exact text) = none := by
  have hstrip : ∀ (front : List Char) (d : Char), d ≠ '\\' →
      stripSuffix (exact text).toList (front ++ [d, '*']) = none := by
    intro front d hd
    refine if_neg fun h => ?_
    obtain ⟨before, hbefore⟩ := List.isSuffixOf_iff_suffix.mp h
    have hspells := spells_literalText text
    rw [exact, String.toList_ofList] at hbefore
    rw [← hbefore, ← List.append_assoc, spells_star _ hd] at hspells
    cases hspells
  have hfirst : stripSuffix (exact text).toList ['/', '*', '*', '/', '*'] = none :=
    hstrip ['/', '*', '*'] '/' (by decide)
  have hsecond : stripSuffix (exact text).toList ['/', '*', '*'] = none :=
    hstrip ['/'] '*' (by decide)
  rw [wholeTree, hfirst, hsecond]
  rfl

/-! ## The path matcher -/

/-- The matcher of the globs that spell a path, a directory or a name. -/
def pathSelects (glob : ScopeGlob) (path : String) : Bool :=
  match spells glob.toList, (stripSuffix glob.toList ['/', '*', '*']).bind spells, glob.toList with
  | some text, _, _ => path.toList = text
  | none, some text, _ => text ≠ [] && (text ++ ['/']).isPrefixOf path.toList
  | none, none, '*' :: '*' :: '/' :: back =>
    (spells back).any fun text => path.toList = text || ('/' :: text).isSuffixOf path.toList
  | none, none, _ => false

/-- The path matcher is one `globset` could document. -/
theorem pathSelects_pathGlobs : PathGlobs pathSelects where
  path glob text path hspells := by
    unfold pathSelects
    rw [hspells]
    exact decide_eq_true_iff
  tree glob front text path hglob hspells hne := by
    have hnone : spells glob.toList = none := by
      rw [hglob]
      exact (congrArg spells (List.append_assoc front ['/'] ['*', '*']).symm).trans
        (spells_star _ (by decide))
    have hstrip : (stripSuffix glob.toList ['/', '*', '*']).bind spells = some text := by
      rw [hglob, stripSuffix_append]
      exact hspells
    unfold pathSelects
    rw [hnone, hstrip]
    simp [hne, List.isPrefixOf_iff_prefix]
  name glob back text path hglob hspells hne hslash := by
    have hnone : spells glob.toList = none := by
      rw [hglob]
      rfl
    have hstrip : (stripSuffix glob.toList ['/', '*', '*']).bind spells = none := by
      unfold stripSuffix
      split
      · next hsuffix =>
        -- what stands in front of the `/**` starts with a star, or is nothing
        obtain ⟨dir, hdir⟩ := List.isSuffixOf_iff_suffix.mp hsuffix
        rw [Option.bind_some, ← hdir]
        cases dir with
        | nil =>
          rw [hglob] at hdir
          simp at hdir
        | cons c dir =>
          rw [hglob, List.cons_append] at hdir
          rw [(List.cons.inj hdir).1]
          simp [spells, opensOrCloses]
      · rfl
    unfold pathSelects
    rw [hnone, hstrip, hglob]
    simp [hspells, List.isSuffixOf_iff_suffix]

end Yunta
