/-
  Globs of one path: what `exact` writes, what `exact_path` reads back, and what either selects.

  1. **Program** — `exact` and `wholeTree` stand beside the other readers of a glob's text;
     `exactPath` undoes the escapes of `exact`, one token at a time.

  2. **Specification** — `globset` is no part of this repository.  `readFrom` cuts a pattern into the
     pieces its documentation names, and `Matcher.Documented` says what a matcher owes each of them.

  3. **The crux (`read_of_negated`)** — `exact_path` takes any `[c]` for the character `c`, and
     `globset` takes `[!` and `[^` for the start of a negated class, which runs on to the next `]`.
     Either the class swallows so much that the pieces are fewer than the characters `exact_path`
     reads, or the text there is `[!][]]`, whose class takes more than one character.

  4. **Result** — `exact` and `wholeTree` keep their word; `exact_path` keeps it for the globs that
     open no bracket with `!` or `^`, and for no other (`Matcher.oneAlone_iff`).
-/
import Yunta.Scope.Glob

namespace Yunta

/-! ## Reading a path back -/

/-- A character that stands for more than itself somewhere in a glob. -/
def isSyntax (c : Char) : Bool := opensOrCloses c || c = '*' || c = '\\'

/-- The path the text spells, when each piece of it spells one character. -/
def exactFrom : List Char → Option (List Char)
  | [] => some []
  | '[' :: inner :: ']' :: rest => (exactFrom rest).map (inner :: ·)
  | '\\' :: c :: rest => (exactFrom rest).map (c :: ·)
  -- an open bracket, a last backslash, a wildcard and an alternation spell no one character
  | c :: rest => if isSyntax c then none else (exactFrom rest).map (c :: ·)

/-- The path an `exact` glob selects, read back from its escapes. -/
def exactPath (glob : ScopeGlob) : Option String := (exactFrom glob.toList).map .ofList

/-- Whether some bracket of the text opens with `!` or `^`. -/
def opensNegated : List Char → Bool
  | '[' :: c :: rest => c = '!' || c = '^' || opensNegated rest
  | '\\' :: _ :: rest => opensNegated rest
  | _ :: rest => opensNegated rest
  | [] => false

/-! ## What `globset` documents -/

/-- A piece of a pattern. -/
inductive Piece
  /-- A character that stands for itself, or an escaped one. -/
  | char (c : Char)
  /-- `[ab]`, and `[!ab]` or `[^ab]`: one character that is in the class, or is not. -/
  | oneOf (negated : Bool) (body : List Char)
  /-- `*`: part of one name. -/
  | name
  /-- `/**` at the end: what lies below. -/
  | below
  /-- `/**/`: no directory or any number of them. -/
  | between
deriving DecidableEq

/-- What a pattern is read as.  A pattern is `unread` where it has syntax no piece stands for. -/
inductive Reading
  | refused
  | unread
  | pieces (all : List Piece)
deriving DecidableEq

def Reading.cons (piece : Piece) : Reading → Reading
  | .pieces rest => .pieces (piece :: rest)
  | .refused => .refused
  | .unread => .unread

/-- The pieces of a text, with the class that is open in front of it.  The first character of a
    class belongs to it, also when it is a `]`. -/
def readFrom : Option (Bool × List Char) → List Char → Reading
  | some _, [] => .refused
  | some (negated, body), c :: rest =>
    if c = ']' then (readFrom none rest).cons (.oneOf negated body)
    else readFrom (some (negated, body ++ [c])) rest
  | none, [] => .pieces []
  | none, '[' :: '!' :: c :: rest => readFrom (some (true, [c])) rest
  | none, '[' :: '^' :: c :: rest => readFrom (some (true, [c])) rest
  | none, '[' :: c :: rest => readFrom (some (false, [c])) rest
  | none, '\\' :: c :: rest => (readFrom none rest).cons (.char c)
  | none, '/' :: '*' :: '*' :: '/' :: rest => (readFrom none rest).cons .between
  | none, ['/', '*', '*'] => .pieces [.below]
  | none, c :: rest =>
    -- an open class, an escape of nothing, an alternation that closes and never opened
    if c = '[' || c = '\\' || c = '}' then .refused
    else if c = '?' || c = '{' || c = '*' && rest.head? = some '*' then .unread
    else (readFrom none rest).cons (if c = '*' then .name else .char c)

/-- Whether a class has a range, as `a-z` is one. -/
def hasRange : List Char → Bool
  | _ :: '-' :: _ :: _ => true
  | _ :: rest => hasRange rest
  | [] => false

/-- A piece that takes one character. -/
def Piece.isChar : Piece → Bool
  | .char _ => true
  | .oneOf _ _ => true
  | _ => false

/-- One that is no class with a range. -/
def Piece.isPlain : Piece → Bool
  | .char _ => true
  | .oneOf _ body => !hasRange body
  | _ => false

/-- Whether a piece takes a text, where `holds` says which characters a class has. -/
def Piece.takes (holds : List Char → Char → Bool) : Piece → List Char → Bool
  | .char c, text => text = [c]
  | .oneOf negated body, [c] => holds body c != negated
  | .oneOf _ _, _ => false
  | .name, text => !text.contains '/'
  | .below, text => text.head? = some '/'
  | .between, text => text.head? = some '/' && text.getLast? = some '/'

/-- Whether pieces take a text, one after the other. -/
def taken (holds : List Char → Char → Bool) : List Piece → List Char → Bool
  | [], text => text.isEmpty
  | piece :: rest, text => (List.range (text.length + 1)).any fun n =>
      piece.takes holds (text.take n) && taken holds rest (text.drop n)

/-- A matcher: which patterns compile, which paths they select, which characters a class has. -/
structure Matcher where
  compiles : ScopeGlob → Bool
  selects : ScopeGlob → String → Bool
  holds : List Char → Char → Bool

/-- What `globset` documents of its matcher, with `literal_separator` on. -/
structure Matcher.Documented (m : Matcher) : Prop where
  refuses : ∀ glob, readFrom none glob.toList = .refused → m.compiles glob = false
  compiles : ∀ glob ps, readFrom none glob.toList = .pieces ps → ps.all Piece.isPlain = true →
    m.compiles glob = true
  /-- A class has the characters it lists; a range has more. -/
  holds : ∀ body c, hasRange body = false → (m.holds body c = true ↔ c ∈ body)
  /-- A pattern selects what its pieces take.  Whether `dir/**` selects the text `dir/`, which names
      no more than `dir` does, is left open. -/
  reads : ∀ glob ps path, m.compiles glob = true → readFrom none glob.toList = .pieces ps →
    ps.all Piece.isChar = true ∨ ¬ ['/'] <:+ path.toList →
    m.selects glob path = taken m.holds ps path.toList

/-- The glob selects `path` and nothing else. -/
def Matcher.SelectsOnly (m : Matcher) (glob : ScopeGlob) (path : String) : Prop :=
  ∀ other, m.selects glob other = true ↔ other = path

/-- `path` lies strictly under the directory. -/
def StrictlyUnder (dir path : String) : Prop :=
  ∃ rest, rest ≠ [] ∧ path.toList = dir.toList ++ '/' :: rest

/-- The glob selects the paths strictly under the directory and nothing else. -/
def Matcher.SelectsTree (m : Matcher) (glob : ScopeGlob) (dir : String) : Prop :=
  ∀ path, ¬ ['/'] <:+ path.toList → (m.selects glob path = true ↔ StrictlyUnder dir path)

/-! ## The texts `exact_path` reads -/

/-- `text` spells `path`, one token after the other. -/
inductive Spells : List Char → List Char → Prop
  | nil : Spells [] []
  | bracket (c : Char) {text path : List Char} : Spells text path →
      Spells ('[' :: c :: ']' :: text) (c :: path)
  | escape (c : Char) {text path : List Char} : Spells text path →
      Spells ('\\' :: c :: text) (c :: path)
  | plain (c : Char) {text path : List Char} : isSyntax c = false → Spells text path →
      Spells (c :: text) (c :: path)

variable {text path : List Char}

theorem spells_of_exactFrom (text : List Char) : ∀ {path : List Char},
    exactFrom text = some path → Spells text path := by
  fun_induction exactFrom text with
  | case1 =>
    rintro path ⟨⟩
    exact .nil
  | case2 inner rest ih =>
    intro path h
    obtain ⟨path, hrest, rfl⟩ := Option.map_eq_some_iff.mp h
    exact .bracket inner (ih hrest)
  | case3 c rest ih =>
    intro path h
    obtain ⟨path, hrest, rfl⟩ := Option.map_eq_some_iff.mp h
    exact .escape c (ih hrest)
  | case4 => rintro path ⟨⟩
  | case5 c rest _ _ hc ih =>
    intro path h
    obtain ⟨path, hrest, rfl⟩ := Option.map_eq_some_iff.mp h
    exact .plain c (by simpa using hc) (ih hrest)

theorem spells_of_exactPath {glob : ScopeGlob} {p : String} (h : exactPath glob = some p) :
    Spells glob.toList p.toList := by
  unfold exactPath at h
  obtain ⟨path, hpath, rfl⟩ := Option.map_eq_some_iff.mp h
  rw [String.toList_ofList]
  exact spells_of_exactFrom _ hpath

theorem isSyntax_eq_false {c : Char} (h : isSyntax c = false) :
    isWildcard c = false ∧ c ≠ '\\' ∧ c ≠ ']' ∧ c ≠ '}' := by
  simp only [isSyntax, opensOrCloses, Bool.or_eq_false_iff, decide_eq_false_iff_not] at h
  simp [isWildcard, h]

theorem exactFrom_plain {c : Char} (h : isSyntax c = false) (rest : List Char) :
    exactFrom (c :: rest) = (exactFrom rest).map (c :: ·) := by
  conv_lhs => unfold exactFrom
  split
  · cases ‹_ = _›
  · cases ‹_ = _›
    cases h
  · cases ‹_ = _›
    cases h
  · cases ‹_ = _›
    rw [if_neg (by simp [h])]

theorem exactFrom_spelled (c : Char) (rest : List Char) :
    exactFrom (spelled c ++ rest) = (exactFrom rest).map (c :: ·) := by
  unfold spelled
  split
  · rfl
  · split
    · next hc => cases hc; rfl
    · next hother hc => exact exactFrom_plain (by simpa [isSyntax, hc] using hother) rest

/-- **Reading back** what `exact` wrote gives the path. -/
theorem exactPath_exact (p : String) : exactPath (exact p) = some p := by
  have hchars : ∀ chars : List Char, exactFrom (chars.flatMap spelled) = some chars := by
    intro chars
    induction chars with
    | nil => rfl
    | cons c chars ih => rw [List.flatMap_cons, exactFrom_spelled, ih]; rfl
  rw [exactPath, exact, String.toList_ofList, literalText, hchars]
  exact congrArg some (String.ofList_toList)

theorem opensNegated_skip {c : Char} (h : isSyntax c = false ∨ c = ']') (rest : List Char) :
    opensNegated (c :: rest) = opensNegated rest := by
  conv_lhs => unfold opensNegated
  split
  · cases ‹_ = _›
    rcases h with h | h <;> cases h
  · cases ‹_ = _›
    rcases h with h | h <;> cases h
  · cases ‹_ = _›
    rfl
  · cases ‹_ = _›

theorem opensNegated_spelled (c : Char) (rest : List Char) :
    opensNegated (spelled c ++ rest) = opensNegated rest := by
  unfold spelled
  split
  · next hc =>
    have hne : c ≠ '!' ∧ c ≠ '^' := by
      constructor <;> · rintro rfl; cases hc
    show (decide (c = '!') || decide (c = '^') || opensNegated (']' :: rest)) = _
    rw [opensNegated_skip (.inr rfl)]
    simp [hne]
  · split
    · rfl
    · next hother hc => exact opensNegated_skip (.inl (by simpa [isSyntax, hc] using hother)) rest

/-- `exact` opens no bracket with `!` or `^`. -/
theorem opensNegated_exact (p : String) : opensNegated (exact p).toList = false := by
  rw [exact, String.toList_ofList, literalText]
  induction p.toList with
  | nil => rfl
  | cons c chars ih => rw [List.flatMap_cons, opensNegated_spelled, ih]

/-! ## How `globset` reads them -/

theorem Reading.cons_eq_pieces {piece : Piece} {r : Reading} {ps : List Piece}
    (h : r.cons piece = .pieces ps) : ∃ rest, r = .pieces rest ∧ ps = piece :: rest := by
  cases r with
  | pieces rest => cases h; exact ⟨rest, rfl, rfl⟩
  | refused => cases h
  | unread => cases h

@[simp] theorem readFrom_end (open_ : Bool × List Char) : readFrom (some open_) [] = .refused := rfl

theorem readFrom_escape (c : Char) (rest : List Char) :
    readFrom none ('\\' :: c :: rest) = (readFrom none rest).cons (.char c) := rfl

theorem readFrom_some (negated : Bool) (body : List Char) (c : Char) (rest : List Char) :
    readFrom (some (negated, body)) (c :: rest) =
      if c = ']' then (readFrom none rest).cons (.oneOf negated body)
      else readFrom (some (negated, body ++ [c])) rest := rfl

/-- A character that is no syntax is read as itself. -/
theorem readFrom_char {c : Char} {rest : List Char} (hwild : isWildcard c = false)
    (hescape : c ≠ '\\') (hcloses : c ≠ '}') (hstar : rest.head? ≠ some '*') :
    readFrom none (c :: rest) = (readFrom none rest).cons (.char c) := by
  simp only [isWildcard, Bool.or_eq_false_iff, decide_eq_false_iff_not] at hwild
  obtain ⟨⟨⟨hname, hany⟩, hopen⟩, halt⟩ := hwild
  rw [readFrom.eq_def]
  split <;> simp_all

/-- A bracket that does not open with `!` or `^` opens a class of what it lists. -/
theorem readFrom_open {c : Char} (hbang : c ≠ '!') (hcaret : c ≠ '^') (rest : List Char) :
    readFrom none ('[' :: c :: rest) = readFrom (some (false, [c])) rest := by
  rw [readFrom]
  · exact fun _ _ h => absurd h hbang
  · exact fun _ _ h => absurd h hcaret

/-- No text that spells a path starts with a `*`. -/
theorem Spells.head_ne (h : Spells text path) : text.head? ≠ some '*' := by
  cases h with
  | nil => simp
  | bracket c h => simp
  | escape c h => simp
  | plain c hc h =>
    rintro ⟨⟩
    cases hc

/-- The piece takes one character, as the text that spells the character says. -/
def Piece.Only (piece : Piece) (c : Char) : Prop := piece = .char c ∨ piece = .oneOf false [c]

/-- `globset` reads what `exact_path` reads, where no bracket opens with `!` or `^`. -/
theorem read_of_spells (h : Spells text path) (hneg : opensNegated text = false) :
    ∃ ps, readFrom none text = .pieces ps ∧ List.Forall₂ Piece.Only ps path := by
  induction h with
  | nil => exact ⟨[], rfl, .nil⟩
  | bracket c h ih =>
    rename_i text path
    replace hneg : (decide (c = '!') || decide (c = '^') || opensNegated (']' :: text)) = false :=
      hneg
    rw [opensNegated_skip (.inr rfl)] at hneg
    simp only [Bool.or_eq_false_iff, decide_eq_false_iff_not] at hneg
    obtain ⟨⟨hbang, hcaret⟩, hneg⟩ := hneg
    obtain ⟨ps, hps, hall⟩ := ih hneg
    refine ⟨.oneOf false [c] :: ps, ?_, .cons (.inr rfl) hall⟩
    rw [readFrom_open hbang hcaret, readFrom_some, if_pos rfl, hps]
    rfl
  | escape c h ih =>
    obtain ⟨ps, hps, hall⟩ := ih hneg
    refine ⟨.char c :: ps, ?_, .cons (.inl rfl) hall⟩
    rw [readFrom_escape, hps]
    rfl
  | plain c hc h ih =>
    obtain ⟨hwild, hescape, hclass, hcloses⟩ := isSyntax_eq_false hc
    rw [opensNegated_skip (.inl hc)] at hneg
    obtain ⟨ps, hps, hall⟩ := ih hneg
    refine ⟨.char c :: ps, ?_, .cons (.inl rfl) hall⟩
    rw [readFrom_char hwild hescape hcloses h.head_ne, hps]
    rfl

/-! ## A bracket that opens with `!` or `^` -/

/-- The pattern is refused, or is pieces that take one character each, at most `n` of them. -/
def Reading.Within (n : Nat) : Reading → Prop
  | .refused => True
  | .unread => False
  | .pieces ps => ps.length ≤ n ∧ ps.all Piece.isChar = true

theorem Reading.Within.cons {r : Reading} {n : Nat} (h : r.Within n) {piece : Piece}
    (hpiece : piece.isChar = true) : (r.cons piece).Within (n + 1) := by
  cases r with
  | refused => trivial
  | unread => exact h
  | pieces ps => exact ⟨Nat.succ_le_succ h.1, by rw [List.all_cons, hpiece, h.2]; rfl⟩

theorem Reading.Within.mono {r : Reading} {n k : Nat} (h : r.Within n) (hle : n ≤ k) :
    r.Within k := by
  cases r with
  | refused => trivial
  | unread => exact h
  | pieces ps => exact ⟨h.1.trans hle, h.2⟩

/-- A `]` with no class open is a character. -/
theorem readFrom_close (hstar : text.head? ≠ some '*') :
    readFrom none (']' :: text) = (readFrom none text).cons (.char ']') :=
  readFrom_char rfl (by decide) (by decide) hstar

/-- A text that spells a path has no more pieces than the path has characters, and one more where a
    class is open in front of it. -/
theorem Spells.within (h : Spells text path) :
    (readFrom none text).Within path.length ∧
      ∀ negated body, (readFrom (some (negated, body)) text).Within (path.length + 1) := by
  induction h with
  | nil =>
    refine ⟨⟨Nat.le_refl _, by simp⟩, fun negated body => ?_⟩
    rw [readFrom_end]
    trivial
  | bracket c h ih =>
    rename_i text path
    have hclose : ∀ negated body, (readFrom (some (negated, body)) (']' :: text)).Within
        (path.length + 1) := by
      intro negated body
      rw [readFrom_some, if_pos rfl]
      exact ih.1.cons rfl
    constructor
    · -- the class ends at the `]`, unless it opens with `!` or `^` and has the `]` for a character
      by_cases hbang : c = '!'
      · subst hbang
        exact ih.2 true [']']
      by_cases hcaret : c = '^'
      · subst hcaret
        exact ih.2 true [']']
      rw [readFrom_open hbang hcaret]
      exact hclose false [c]
    · intro negated body
      rw [readFrom_some, if_neg (by decide), readFrom_some]
      split
      · -- the character is itself the `]` that closes the class
        rw [readFrom_close h.head_ne]
        exact (ih.1.cons rfl).cons rfl
      · exact (hclose negated _).mono (by simp)
  | escape c h ih =>
    constructor
    · rw [readFrom_escape]
      exact ih.1.cons rfl
    · intro negated body
      rw [readFrom_some, if_neg (by decide), readFrom_some]
      split
      · exact (ih.1.cons rfl).mono (by simp)
      · exact (ih.2 negated _).mono (by simp)
  | plain c hc h ih =>
    obtain ⟨hwild, hescape, hclass, hcloses⟩ := isSyntax_eq_false hc
    constructor
    · rw [readFrom_char hwild hescape hcloses h.head_ne]
      exact ih.1.cons rfl
    · intro negated body
      rw [readFrom_some, if_neg hclass]
      exact (ih.2 negated _).mono (by simp)

/-- A class that is open in front of a text takes in two characters of the path or more, unless it
    ends at the first bracket of the text. -/
theorem Spells.swallowed (h : Spells text path) {negated : Bool} {body : List Char}
    {ps : List Piece} (hps : readFrom (some (negated, body)) text = .pieces ps) :
    ps.length ≤ path.length ∨ .oneOf negated (body ++ ['[']) ∈ ps := by
  cases h with
  | nil =>
    rw [readFrom_end] at hps
    cases hps
  | bracket c h =>
    rw [readFrom_some, if_neg (by decide), readFrom_some] at hps
    split at hps
    · obtain ⟨rest, -, rfl⟩ := Reading.cons_eq_pieces hps
      exact .inr List.mem_cons_self
    · rw [readFrom_some, if_pos rfl] at hps
      obtain ⟨rest, hrest, rfl⟩ := Reading.cons_eq_pieces hps
      have hwithin := h.within.1
      rw [hrest] at hwithin
      exact .inl (Nat.succ_le_succ hwithin.1)
  | escape c h =>
    rw [readFrom_some, if_neg (by decide), readFrom_some] at hps
    split at hps
    · obtain ⟨rest, hrest, rfl⟩ := Reading.cons_eq_pieces hps
      have hwithin := h.within.1
      rw [hrest] at hwithin
      exact .inl (Nat.succ_le_succ hwithin.1)
    · have hwithin := h.within.2 negated (body ++ ['\\'] ++ [c])
      rw [hps] at hwithin
      exact .inl hwithin.1
  | plain c hc h =>
    rw [readFrom_some, if_neg (isSyntax_eq_false hc).2.2.1] at hps
    have hwithin := h.within.2 negated (body ++ [c])
    rw [hps] at hwithin
    exact .inl hwithin.1

/-- **A negated class** leaves fewer pieces than the path has characters, or is the class of what is
    neither `]` nor `[`. -/
theorem read_of_negated (h : Spells text path) (hneg : opensNegated text = true) {ps : List Piece}
    (hps : readFrom none text = .pieces ps) :
    ps.length < path.length ∨ .oneOf true [']', '['] ∈ ps := by
  induction h generalizing ps with
  | nil => cases hneg
  | bracket c h ih =>
    rename_i text path
    by_cases hbang : c = '!'
    · subst hbang
      exact (h.swallowed hps).imp_left Nat.lt_succ_of_le
    by_cases hcaret : c = '^'
    · subst hcaret
      exact (h.swallowed hps).imp_left Nat.lt_succ_of_le
    replace hneg : (decide (c = '!') || decide (c = '^') || opensNegated (']' :: text)) = true :=
      hneg
    rw [opensNegated_skip (.inr rfl)] at hneg
    rw [readFrom_open hbang hcaret, readFrom_some, if_pos rfl] at hps
    obtain ⟨rest, hrest, rfl⟩ := Reading.cons_eq_pieces hps
    exact (ih (by simpa [hbang, hcaret] using hneg) hrest).imp Nat.succ_lt_succ
      (List.mem_cons_of_mem _)
  | escape c h ih =>
    rw [readFrom_escape] at hps
    obtain ⟨rest, hrest, rfl⟩ := Reading.cons_eq_pieces hps
    exact (ih hneg hrest).imp Nat.succ_lt_succ (List.mem_cons_of_mem _)
  | plain c hc h ih =>
    obtain ⟨hwild, hescape, hclass, hcloses⟩ := isSyntax_eq_false hc
    rw [opensNegated_skip (.inl hc)] at hneg
    rw [readFrom_char hwild hescape hcloses h.head_ne] at hps
    obtain ⟨rest, hrest, rfl⟩ := Reading.cons_eq_pieces hps
    exact (ih hneg hrest).imp Nat.succ_lt_succ (List.mem_cons_of_mem _)

/-! ## What the pieces take -/

variable {holds : List Char → Char → Bool} {ps : List Piece}

theorem taken_cons {piece : Piece} {chars : List Char} :
    taken holds (piece :: ps) chars = true ↔
      ∃ front back, chars = front ++ back ∧ piece.takes holds front = true ∧
        taken holds ps back = true := by
  simp only [taken, List.any_eq_true, List.mem_range, Bool.and_eq_true]
  constructor
  · rintro ⟨n, -, hfront, hback⟩
    exact ⟨_, _, (List.take_append_drop n chars).symm, hfront, hback⟩
  · rintro ⟨front, back, rfl, hfront, hback⟩
    refine ⟨front.length, by rw [List.length_append]; omega, ?_, ?_⟩
    · rwa [List.take_left]
    · rwa [List.drop_left]

theorem Piece.takes_char {c : Char} {chars : List Char} :
    (Piece.char c).takes holds chars = true ↔ chars = [c] := decide_eq_true_iff

/-- A piece that takes one character takes one character. -/
theorem Piece.takes_isChar {piece : Piece} {chars : List Char} (hpiece : piece.isChar = true)
    (h : piece.takes holds chars = true) : ∃ c, chars = [c] := by
  cases piece with
  | char c => exact ⟨c, takes_char.mp h⟩
  | oneOf negated body =>
    unfold Piece.takes at h
    split at h <;> simp_all
  | name => cases hpiece
  | below => cases hpiece
  | between => cases hpiece

/-- Pieces of one character each take a text of as many characters. -/
theorem length_of_taken {chars : List Char} (hall : ps.all Piece.isChar = true)
    (h : taken holds ps chars = true) : ps.length = chars.length := by
  induction ps generalizing chars with
  | nil =>
    rw [List.isEmpty_iff.mp h]
    rfl
  | cons piece ps ih =>
    rw [List.all_cons, Bool.and_eq_true] at hall
    obtain ⟨front, back, rfl, hfront, hback⟩ := taken_cons.mp h
    obtain ⟨c, rfl⟩ := Piece.takes_isChar hall.1 hfront
    rw [List.length_cons, ih hall.2 hback]
    rfl

/-- Pieces one of which is the class of what is neither `]` nor `[` take no text alone. -/
theorem taken_other {chars : List Char}
    (hholds : ∀ body c, hasRange body = false → (holds body c = true ↔ c ∈ body))
    (hall : ps.all Piece.isChar = true) (hmem : .oneOf true [']', '['] ∈ ps)
    (h : taken holds ps chars = true) : ∃ other, other ≠ chars ∧ taken holds ps other = true := by
  induction ps generalizing chars with
  | nil => cases hmem
  | cons piece ps ih =>
    rw [List.all_cons, Bool.and_eq_true] at hall
    obtain ⟨front, back, rfl, hfront, hback⟩ := taken_cons.mp h
    rcases List.mem_cons.mp hmem with rfl | hmem
    · obtain ⟨c, rfl⟩ := Piece.takes_isChar hall.1 hfront
      -- the class takes both an `a` and a `b`, so one that is not the character here
      have htakes : ∀ d : Char, d = 'a' ∨ d = 'b' →
          (Piece.oneOf true [']', '[']).takes holds [d] = true := by
        intro d hd
        have hnot : holds [']', '['] d = false := by
          rw [← Bool.not_eq_true, hholds _ _ rfl]
          rcases hd with rfl | rfl <;> decide
        show (holds [']', '['] d != true) = true
        rw [hnot]
        rfl
      by_cases hc : c = 'a'
      · refine ⟨'b' :: back, ?_, taken_cons.mpr ⟨['b'], back, rfl, htakes _ (.inr rfl), hback⟩⟩
        subst hc
        simp
      · refine ⟨'a' :: back, ?_, taken_cons.mpr ⟨['a'], back, rfl, htakes _ (.inl rfl), hback⟩⟩
        rintro ⟨⟩
        exact hc rfl
    · obtain ⟨other, hne, hother⟩ := ih hall.2 hmem hback
      refine ⟨front ++ other, fun heq => hne (List.append_cancel_left heq), ?_⟩
      exact taken_cons.mpr ⟨front, other, rfl, hfront, hother⟩

/-- Pieces that take one given character each take the text of these characters and no other. -/
theorem taken_only (hholds : ∀ body c, hasRange body = false → (holds body c = true ↔ c ∈ body))
    (h : List.Forall₂ Piece.Only ps path) {chars : List Char} :
    taken holds ps chars = true ↔ chars = path := by
  induction h generalizing chars with
  | nil => exact List.isEmpty_iff
  | cons hpiece hrest ih =>
    rename_i piece c ps path
    have hfront : ∀ front, piece.takes holds front = true ↔ front = [c] := by
      intro front
      rcases hpiece with rfl | rfl
      · exact Piece.takes_char
      · constructor
        · intro hfront
          obtain ⟨d, rfl⟩ := Piece.takes_isChar rfl hfront
          replace hfront : (holds [c] d != false) = true := hfront
          rw [Bool.bne_false, hholds _ _ rfl, List.mem_singleton] at hfront
          rw [hfront]
        · rintro rfl
          show (holds [c] c != false) = true
          rw [Bool.bne_false, hholds _ _ rfl]
          exact List.mem_singleton_self c
    rw [taken_cons]
    constructor
    · rintro ⟨front, back, rfl, htakes, hback⟩
      rw [(hfront front).mp htakes, ih.mp hback]
      rfl
    · rintro rfl
      exact ⟨[c], path, rfl, (hfront _).mpr rfl, ih.mpr rfl⟩

theorem all_isPlain (h : List.Forall₂ Piece.Only ps path) : ps.all Piece.isPlain = true := by
  induction h with
  | nil => rfl
  | cons hpiece hrest ih =>
    rw [List.all_cons, ih, Bool.and_true]
    rcases hpiece with rfl | rfl <;> rfl

theorem all_isChar (h : ps.all Piece.isPlain = true) : ps.all Piece.isChar = true := by
  rw [List.all_eq_true] at h ⊢
  intro piece hpiece
  have hplain := h piece hpiece
  cases piece <;> first | rfl | cases hplain

/-! ## Whole trees -/

/-- Plain text is read as its characters, unless it closes an alternation. -/
theorem readFrom_dir {dir back : List Char} {all : List Piece}
    (hdir : ∀ c ∈ dir, isWildcard c = false ∧ c ≠ '\\') (hstar : back.head? ≠ some '*')
    (hback : readFrom none back = .pieces all) :
    readFrom none (dir ++ back) = .refused ∨
      readFrom none (dir ++ back) = .pieces (dir.map Piece.char ++ all) := by
  induction dir with
  | nil => exact .inr hback
  | cons c dir ih =>
    obtain ⟨hwild, hescape⟩ := hdir c List.mem_cons_self
    have hrest : ∀ d ∈ dir, isWildcard d = false ∧ d ≠ '\\' :=
      fun d hd => hdir d (List.mem_cons_of_mem _ hd)
    by_cases hcloses : c = '}'
    · left
      subst hcloses
      rw [List.cons_append]
      rfl
    · have hhead : (dir ++ back).head? ≠ some '*' := by
        cases dir with
        | nil => exact hstar
        | cons d dir =>
          rintro ⟨⟩
          exact absurd (hrest '*' List.mem_cons_self).1 (by decide)
      rw [List.cons_append, readFrom_char hwild hescape hcloses hhead]
      rcases ih hrest with hread | hread
      · exact .inl (by rw [hread]; rfl)
      · exact .inr (by rw [hread]; rfl)

theorem taken_dir {dir : List Char} {all : List Piece} {chars : List Char} :
    taken holds (dir.map Piece.char ++ all) chars = true ↔
      ∃ back, chars = dir ++ back ∧ taken holds all back = true := by
  induction dir generalizing chars with
  | nil => simp
  | cons c dir ih =>
    rw [List.map_cons, List.cons_append, taken_cons]
    constructor
    · rintro ⟨front, back, rfl, hfront, hback⟩
      obtain ⟨rest, rfl, hrest⟩ := ih.mp hback
      rw [Piece.takes_char.mp hfront]
      exact ⟨rest, rfl, hrest⟩
    · rintro ⟨back, rfl, hback⟩
      exact ⟨[c], dir ++ back, rfl, Piece.takes_char.mpr rfl, ih.mpr ⟨back, rfl, hback⟩⟩

/-- `/**` takes what starts with a `/`. -/
theorem taken_below {back : List Char} :
    taken holds [.below] back = true ↔ ∃ rest, back = '/' :: rest := by
  rw [taken_cons]
  constructor
  · rintro ⟨front, back, rfl, hfront, hback⟩
    rw [List.isEmpty_iff.mp hback, List.append_nil]
    exact List.head?_eq_some_iff.mp (decide_eq_true_iff.mp hfront)
  · rintro ⟨rest, rfl⟩
    exact ⟨'/' :: rest, [], by simp, rfl, rfl⟩

/-- And so does `/**/*`: the directories are what stands in front of the last `/`. -/
theorem taken_between {back : List Char} :
    taken holds [.between, .name] back = true ↔ ∃ rest, back = '/' :: rest := by
  rw [taken_cons]
  constructor
  · rintro ⟨front, back, rfl, hfront, hback⟩
    rw [Piece.takes, Bool.and_eq_true] at hfront
    obtain ⟨rest, rfl⟩ := List.head?_eq_some_iff.mp (decide_eq_true_iff.mp hfront.1)
    exact ⟨rest ++ back, rfl⟩
  · rintro ⟨rest, rfl⟩
    have hjoin : ('/' :: rest).rdropWhile (· ≠ '/') ++ ('/' :: rest).rtakeWhile (· ≠ '/') =
        '/' :: rest := List.rdropWhile_append_rtakeWhile
    generalize hdirs : ('/' :: rest).rdropWhile (· ≠ '/') = dirs at hjoin
    generalize hname : ('/' :: rest).rtakeWhile (· ≠ '/') = name at hjoin
    have hnotin : '/' ∉ name := by
      intro hmem
      rw [← hname] at hmem
      simpa using List.mem_rtakeWhile_imp hmem
    have hne : dirs ≠ [] := by
      rintro rfl
      rw [List.nil_append] at hjoin
      exact hnotin (hjoin ▸ List.mem_cons_self)
    have hhead : dirs.head? = some '/' := by
      have happend : (dirs ++ name).head? = dirs.head? := List.head?_append_of_ne_nil dirs hne
      rw [← happend, hjoin]
      rfl
    have hlast : dirs.getLast? = some '/' := by
      subst hdirs
      rw [List.getLast?_eq_some_getLast hne]
      simpa using List.rdropWhile_last_not (fun c : Char => decide (c ≠ '/')) _ hne
    refine ⟨dirs, name, hjoin.symm, ?_, taken_cons.mpr ⟨name, [], by simp, ?_, rfl⟩⟩
    · rw [Piece.takes, hhead, hlast]
      rfl
    · simpa [Piece.takes] using hnotin

theorem stripSuffix_eq_some {chars back front : List Char}
    (h : stripSuffix chars back = some front) : chars = front ++ back := by
  unfold stripSuffix at h
  split at h
  · next hsuffix =>
    cases h
    obtain ⟨front, rfl⟩ := List.isSuffixOf_iff_suffix.mp hsuffix
    simp
  · cases h

theorem wholeTree_eq_some {glob : ScopeGlob} {dir : String} (h : wholeTree glob = some dir) :
    (glob.toList = dir.toList ++ ['/', '*', '*', '/', '*'] ∨
      glob.toList = dir.toList ++ ['/', '*', '*']) ∧
    ∀ c ∈ dir.toList, isWildcard c = false ∧ c ≠ '\\' := by
  obtain ⟨front, hstrip, hdir⟩ := Option.bind_eq_some_iff.mp h
  split at hdir
  · next hplain =>
    cases hdir
    rw [String.toList_ofList]
    refine ⟨?_, by simpa using hplain.2⟩
    cases hlong : stripSuffix glob.toList ['/', '*', '*', '/', '*'] with
    | some long =>
      rw [hlong] at hstrip
      cases hstrip
      exact .inl (stripSuffix_eq_some hlong)
    | none =>
      rw [hlong] at hstrip
      exact .inr (stripSuffix_eq_some hstrip)
  · cases hdir

/-! ## What the globs select -/

namespace Matcher

variable {m : Matcher} {glob : ScopeGlob}

/-- A pattern whose pieces take one given character each selects the path of these characters. -/
theorem Documented.selectsOnly (h : m.Documented) {p : String}
    (hread : readFrom none glob.toList = .pieces ps)
    (honly : List.Forall₂ Piece.Only ps p.toList) :
    m.compiles glob = true ∧ m.SelectsOnly glob p := by
  have hcompiles := h.compiles glob ps hread (all_isPlain honly)
  refine ⟨hcompiles, fun other => ?_⟩
  rw [h.reads glob ps other hcompiles hread (.inl (all_isChar (all_isPlain honly))),
    taken_only h.holds honly, String.toList_inj]

/-- **What `exact` writes** is a glob of its path and of no other. -/
theorem Documented.exact_spec (h : m.Documented) (p : String) :
    m.compiles (exact p) = true ∧ m.SelectsOnly (exact p) p := by
  obtain ⟨ps, hread, honly⟩ :=
    read_of_spells (spells_of_exactPath (exactPath_exact p)) (opensNegated_exact p)
  exact h.selectsOnly hread honly

/-- **What `exact_path` reads** is the one path its glob selects, if no bracket of the glob opens
    with `!` or `^`, and only then. -/
theorem Documented.exactPath_iff (h : m.Documented) {p : String}
    (hcompiles : m.compiles glob = true) (hpath : exactPath glob = some p) :
    m.SelectsOnly glob p ↔ opensNegated glob.toList = false := by
  have hspells := spells_of_exactPath hpath
  constructor
  · intro honly
    by_contra hneg
    rw [Bool.not_eq_false] at hneg
    have hwithin := hspells.within.1
    cases hread : readFrom none glob.toList with
    | refused => exact absurd hcompiles (by rw [h.refuses glob hread]; decide)
    | unread => rw [hread] at hwithin; exact hwithin
    | pieces ps =>
      rw [hread] at hwithin
      have hreads : ∀ other, m.selects glob other = taken m.holds ps other.toList :=
        fun other => h.reads glob ps other hcompiles hread (.inl hwithin.2)
      have htaken : taken m.holds ps p.toList = true := by
        rw [← hreads]
        exact (honly p).mpr rfl
      rcases read_of_negated hspells hneg hread with hfewer | hclass
      · exact absurd (length_of_taken hwithin.2 htaken) (Nat.ne_of_lt hfewer)
      · obtain ⟨other, hne, hother⟩ := taken_other h.holds hwithin.2 hclass htaken
        refine hne ?_
        have hselects : m.selects glob (.ofList other) = true := by
          rwa [hreads, String.toList_ofList]
        rw [← (honly _).mp hselects, String.toList_ofList]
  · intro hneg
    obtain ⟨ps, hread, honly⟩ := read_of_spells hspells hneg
    exact (h.selectsOnly hread honly).2

/-- **What `whole_tree` reads** is the directory its glob selects every path under. -/
theorem Documented.wholeTree_spec (h : m.Documented) {dir : String}
    (hcompiles : m.compiles glob = true) (htree : wholeTree glob = some dir) :
    m.SelectsTree glob dir := by
  obtain ⟨hglob, hdir⟩ := wholeTree_eq_some htree
  -- both endings take what starts with a `/`
  obtain ⟨all, hread, hall⟩ : ∃ all, readFrom none glob.toList =
      .pieces (dir.toList.map Piece.char ++ all) ∧
      ∀ back, taken m.holds all back = true ↔ ∃ rest, back = '/' :: rest := by
    have hrefused : readFrom none glob.toList ≠ .refused := by
      intro hrefused
      rw [h.refuses glob hrefused] at hcompiles
      cases hcompiles
    rcases hglob with hglob | hglob
    · refine ⟨[.between, .name], ?_, fun _ => taken_between⟩
      rw [hglob] at hrefused ⊢
      exact (readFrom_dir hdir (by decide) (by rfl)).resolve_left hrefused
    · refine ⟨[.below], ?_, fun _ => taken_below⟩
      rw [hglob] at hrefused ⊢
      exact (readFrom_dir hdir (by decide) (by rfl)).resolve_left hrefused
  intro path hpath
  rw [h.reads glob _ path hcompiles hread (.inr hpath), taken_dir]
  constructor
  · rintro ⟨back, hback, htakes⟩
    obtain ⟨rest, rfl⟩ := (hall back).mp htakes
    refine ⟨rest, ?_, hback⟩
    rintro rfl
    exact hpath ⟨dir.toList, hback.symm⟩
  · rintro ⟨rest, -, hrest⟩
    exact ⟨'/' :: rest, hrest, (hall _).mpr ⟨rest, rfl⟩⟩

/-- **Globs of one path.**  For every matcher that does as documented: `exact` writes a glob of its
    path alone, which `exact_path` reads back; `exact_path` reads the one path a glob selects, if no
    bracket of the glob opens with `!` or `^`, and only then; and `whole_tree` reads the directory
    whose paths a glob selects. -/
theorem oneAlone_iff (m : Matcher) (h : m.Documented) :
    (∀ p, m.compiles (exact p) = true ∧ m.SelectsOnly (exact p) p ∧
      exactPath (exact p) = some p) ∧
    (∀ glob p, m.compiles glob = true → exactPath glob = some p →
      (m.SelectsOnly glob p ↔ opensNegated glob.toList = false)) ∧
    (∀ glob dir, m.compiles glob = true → wholeTree glob = some dir → m.SelectsTree glob dir) :=
  ⟨fun p => ⟨(h.exact_spec p).1, (h.exact_spec p).2, exactPath_exact p⟩,
    fun _ _ hcompiles hpath => h.exactPath_iff hcompiles hpath,
    fun _ _ hcompiles htree => h.wholeTree_spec hcompiles htree⟩

/-! ## A matcher -/

/-- The matcher that takes a pattern for its pieces, and a range for the characters it is written
    with. -/
def ofPieces : Matcher where
  compiles glob := readFrom none glob.toList ≠ .refused
  selects glob path :=
    match readFrom none glob.toList with
    | .pieces ps => taken (fun body c => body.contains c) ps path.toList
    | _ => false
  holds body c := body.contains c

theorem ofPieces_documented : ofPieces.Documented where
  refuses glob hread := by simp [ofPieces, hread]
  compiles glob ps hread _ := by simp [ofPieces, hread]
  holds body c _ := List.contains_iff_mem
  reads glob ps path _ hread _ := by simp [ofPieces, hread]

/-- `exact` spells a star as a class, and the class is read back. -/
theorem oneAlone_star : exactPath "docs/[*].md" = some "docs/*.md" ∧
    ofPieces.SelectsOnly "docs/[*].md" "docs/*.md" :=
  ⟨by decide +kernel, ((oneAlone_iff ofPieces ofPieces_documented).2.1 _ _ (by decide +kernel)
    (by decide +kernel)).mpr (by decide +kernel)⟩

/-- **A negated class read as a path**: `[!][x]` selects `a`, and does not select `!x`. -/
theorem not_oneAlone : ¬ ∀ m : Matcher, m.Documented →
    (∀ p, m.compiles (exact p) = true ∧ m.SelectsOnly (exact p) p ∧
      exactPath (exact p) = some p) ∧
    (∀ glob p, m.compiles glob = true → exactPath glob = some p → m.SelectsOnly glob p) ∧
    (∀ glob dir, m.compiles glob = true → wholeTree glob = some dir → m.SelectsTree glob dir) := by
  intro h
  have honly := (h ofPieces ofPieces_documented).2.1 "[!][x]" "!x" (by decide +kernel)
    (by decide +kernel)
  exact absurd ((honly "a").mp (by decide +kernel)) (by decide)

end Matcher

end Yunta
