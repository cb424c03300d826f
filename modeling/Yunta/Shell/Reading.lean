/-
  What one step of the scanner reads.

  1. **Tokens** — `Takes`: the scanner adds a piece of text to the command being read.  `Reads` says that
     it does so in every state alike, whatever follows, so long as the next sign is free of the piece.

  2. **Rules** — one for each kind of sign, by the mode it is read in.

  3. **Trimming** — `Trims`: what is left of a token when the command that ends in it is trimmed.
-/
import Yunta.Shell.Scanner

set_option linter.unusedVariables false

namespace Yunta.Shell

open Text (isWhitespace)

/-! ## Tokens -/

/-- What a step adds to the command being read: the text, the mode it leaves the scanner in, and the
    delimiter of the heredoc it opens. -/
structure Token where
  text : List Char
  quote : Quote
  nested : Nat
  backtick : Bool
  heredocs : List (List Char)

/-- The first of the signs ahead, if any, is one of those. -/
def Fits (free : Char → Prop) (chars : List Char) : Prop := ∀ x, chars.head? = some x → free x

namespace Scanner

def take (s : Scanner) (token : Token) (rest : List Char) : Scanner :=
  { s with
    chars := rest
    current := s.current ++ token.text
    quote := token.quote
    nested := token.nested
    backtick := token.backtick
    heredocs := s.heredocs ++ token.heredocs }

/-- The scanner reads the token's text off what is ahead, and leaves the rest. -/
def Takes (s : Scanner) (token : Token) (rest : List Char) : Prop :=
  Scan.Reaches step { s with chars := token.text ++ rest } (s.take token rest)

/-- Outside quotes and substitutions. -/
def top (s : Scanner) : Bool := s.quote = .none && s.nested = 0 && !s.backtick

/-- Two scanners that read the sign `x` alike. -/
structure Alike (x : Char) (s t : Scanner) : Prop where
  quote : t.quote = s.quote
  nested : t.nested = s.nested
  backtick : t.backtick = s.backtick
  redirects : t.redirects = s.redirects
  word : x = '#' → t.startsWord = s.startsWord

theorem Alike.refl (x : Char) (s : Scanner) : Alike x s s := ⟨rfl, rfl, rfl, rfl, fun _ => rfl⟩

/-- Every scanner alike takes the token, whatever follows that begins with a free sign. -/
def Reads (s : Scanner) (token : Token) (free : Char → Prop) : Prop :=
  ∀ t, (∀ x, token.text.head? = some x → Alike x s t) → ∀ rest, Fits free rest → t.Takes token rest

/-! ## Rules -/

section
variable {s t : Scanner} {c x : Char} {rest : List Char}

/-- Outside quotes a step is what `unquoted` takes. -/
theorem step_unquoted (hquote : s.quote = .none) (hchars : s.chars = c :: rest) :
    step s = some (({ s with chars := rest } : Scanner).unquoted c) := by
  rw [step, hchars]
  simp only [quoted, hquote, Option.getD_none]

theorem takes_unquoted {token : Token} {text : List Char} (hquote : s.quote = .none)
    (htext : token.text = c :: text)
    (h : ({ s with chars := text ++ rest } : Scanner).unquoted c = s.take token rest) :
    s.Takes token rest := by
  rw [Takes, htext, ← h]
  exact .one (step_unquoted (s := { s with chars := c :: (text ++ rest) }) hquote rfl)

theorem Reads.mono {token : Token} {free less : Char → Prop} (h : s.Reads token free)
    (hless : ∀ x, less x → free x) : s.Reads token less :=
  fun t halike rest hfits => h t halike rest fun x hx => hless x (hfits x hx)

/-- A token of one sign, pushed as it is. -/
def sign (s : Scanner) (c : Char) : Token := ⟨[c], s.quote, s.nested, s.backtick, []⟩

theorem take_sign (halike : Alike x s t) (c : Char) (rest : List Char) :
    t.take (s.sign c) rest = { t.push [c] with chars := rest } := by
  simp [take, sign, push, ← halike.quote, ← halike.nested, ← halike.backtick]

/-! ### Inside quotes -/

theorem reads_single (hquote : s.quote = .single) (c : Char) :
    s.Reads ⟨[c], if c = '\'' then .none else .single, s.nested, s.backtick, []⟩ fun _ => True := by
  intro t halike rest _
  have h := halike c rfl
  have ht : t.quote = .single := h.quote.trans hquote
  refine .one ?_
  by_cases hc : c = '\'' <;> simp [step, quoted, take, push, hc, ht, ← h.nested, ← h.backtick]

theorem reads_double (hquote : s.quote = .double) (hc : c ≠ '\\') :
    s.Reads ⟨[c], if c = '"' then .none else .double, s.nested, s.backtick, []⟩ fun _ => True := by
  intro t halike rest _
  have h := halike c rfl
  have ht : t.quote = .double := h.quote.trans hquote
  refine .one ?_
  by_cases hq : c = '"' <;> simp [step, quoted, take, push, hc, hq, ht, ← h.nested, ← h.backtick]

theorem reads_double_escape (hquote : s.quote = .double) (c : Char) :
    s.Reads ⟨['\\', c], .double, s.nested, s.backtick, []⟩ fun _ => True := by
  intro t halike rest _
  have h := halike '\\' rfl
  have ht : t.quote = .double := h.quote.trans hquote
  exact .one (by simp [step, quoted, take, push, ht, ← h.nested, ← h.backtick])

/-- A `\` that ends the script. -/
theorem reads_double_last (hquote : s.quote = .double) :
    s.Reads (s.sign '\\') fun _ => False := by
  intro t halike rest hfits
  have h := halike '\\' rfl
  have ht : t.quote = .double := h.quote.trans hquote
  have hrest : rest = [] := by
    cases rest with
    | nil => rfl
    | cons x _ => exact (hfits x rfl).elim
  subst hrest
  rw [Takes, take_sign h]
  exact .one (by simp [step, quoted, sign, push, ht])

/-! ### Outside quotes -/

theorem reads_escape (hquote : s.quote = .none) (hc : c ≠ '\n') :
    s.Reads ⟨['\\', c], .none, s.nested, s.backtick, []⟩ fun _ => True := by
  intro t halike rest _
  have h := halike '\\' rfl
  refine takes_unquoted (h.quote.trans hquote) rfl ?_
  simp [unquoted, take, push, hc, ← h.nested, ← h.backtick, h.quote.trans hquote]

theorem reads_last (hquote : s.quote = .none) : s.Reads (s.sign '\\') fun _ => False := by
  intro t halike rest hfits
  have h := halike '\\' rfl
  have hrest : rest = [] := by
    cases rest with
    | nil => rfl
    | cons x _ => exact (hfits x rfl).elim
  subst hrest
  refine takes_unquoted (h.quote.trans hquote) rfl ?_
  rw [take_sign h]
  simp [unquoted, push]

theorem reads_open (hquote : s.quote = .none) (hc : c = '\'' ∨ c = '"') :
    s.Reads ⟨[c], if c = '\'' then .single else .double, s.nested, s.backtick, []⟩ fun _ => True := by
  intro t halike rest _
  have h := halike c rfl
  have hne : c ≠ '\\' := by rcases hc with rfl | rfl <;> decide
  refine takes_unquoted (h.quote.trans hquote) rfl ?_
  simp [unquoted, take, push, hne, hc, ← h.nested, ← h.backtick]

theorem reads_backtick (hquote : s.quote = .none) :
    s.Reads ⟨['`'], .none, s.nested, !s.backtick, []⟩ fun _ => True := by
  intro t halike rest _
  have h := halike '`' rfl
  refine takes_unquoted (h.quote.trans hquote) rfl ?_
  simp [unquoted, take, push, ← h.nested, ← h.backtick, h.quote.trans hquote]

theorem reads_substitution (hquote : s.quote = .none) :
    s.Reads ⟨['$', '('], .none, s.nested + 1, s.backtick, []⟩ fun _ => True := by
  intro t halike rest _
  have h := halike '$' rfl
  refine takes_unquoted (h.quote.trans hquote) rfl ?_
  simp [unquoted, take, push, ← h.nested, ← h.backtick, h.quote.trans hquote]

theorem reads_deeper (hquote : s.quote = .none) (hnested : 0 < s.nested) :
    s.Reads ⟨['('], .none, s.nested + 1, s.backtick, []⟩ fun _ => True := by
  intro t halike rest _
  have h := halike '(' rfl
  refine takes_unquoted (h.quote.trans hquote) rfl ?_
  rw [← h.nested] at hnested
  simp [unquoted, take, push, ← h.nested, ← h.backtick, h.quote.trans hquote, hnested]

theorem reads_back (hquote : s.quote = .none) (hnested : 0 < s.nested) :
    s.Reads ⟨[')'], .none, s.nested - 1, s.backtick, []⟩ fun _ => True := by
  intro t halike rest _
  have h := halike ')' rfl
  refine takes_unquoted (h.quote.trans hquote) rfl ?_
  rw [← h.nested] at hnested
  simp [unquoted, take, push, ← h.nested, ← h.backtick, h.quote.trans hquote, hnested]

/-- A sign with a meaning of its own in every mode outside quotes. -/
def Marked (c : Char) : Prop := c ∈ ['\\', '\'', '"', '`', '$']

/-- A sign with no meaning of its own is pushed inside a substitution. -/
theorem reads_inside (hquote : s.quote = .none) (hin : 0 < s.nested ∨ s.backtick = true)
    (hmarked : ¬ Marked c) (hparen : 0 < s.nested → c ≠ '(' ∧ c ≠ ')') :
    s.Reads (s.sign c) fun _ => True := by
  intro t halike rest _
  have h := halike c rfl
  refine takes_unquoted (h.quote.trans hquote) rfl ?_
  rw [take_sign h]
  simp only [Marked, List.mem_cons, List.not_mem_nil, or_false, not_or] at hmarked
  obtain ⟨h1, h2, h3, h4, h5⟩ := hmarked
  rw [← h.nested] at hin hparen
  rw [← h.backtick] at hin
  have hopen : ¬ (c = '(' ∧ 0 < t.nested) := by
    rintro ⟨hc, hpos⟩
    exact (hparen hpos).1 hc
  have hclose : ¬ (c = ')' ∧ 0 < t.nested) := by
    rintro ⟨hc, hpos⟩
    exact (hparen hpos).2 hc
  simp [unquoted, push, h1, h2, h3, h4, h5, hopen, hclose, hin]

/-- A `$` that opens no substitution. -/
theorem reads_dollar (hquote : s.quote = .none) : s.Reads (s.sign '$') fun x => x ≠ '(' := by
  intro t halike rest hfits
  have h := halike '$' rfl
  have hnext : rest.head? ≠ some '(' := fun hhead => hfits '(' hhead rfl
  refine takes_unquoted (h.quote.trans hquote) rfl ?_
  rw [take_sign h]
  simp [unquoted, operator, push, hnext]

/-! ### Outside quotes and substitutions -/

theorem top_iff : s.top = true ↔ s.quote = .none ∧ s.nested = 0 ∧ s.backtick = false := by
  simp [top, and_assoc]

theorem Alike.top (h : Alike x s t) (htop : s.top = true) : t.top = true := by
  obtain ⟨hquote, hnested, hbacktick⟩ := top_iff.mp htop
  exact top_iff.mpr ⟨h.quote.trans hquote, h.nested.trans hnested, h.backtick.trans hbacktick⟩

/-- A sign that no mark, comment or heredoc takes. -/
structure Operates (s : Scanner) (c : Char) (rest : List Char) : Prop where
  top : s.top = true
  marked : ¬ Marked c
  hash : c = '#' → s.startsWord = false
  less : c = '<' → rest.head? ≠ some '<'

/-- Such a sign is an operator, or nothing special. -/
theorem step_operator (h : s.Operates c rest) (hchars : s.chars = c :: rest) :
    step s = some (({ s with chars := rest } : Scanner).operator c) := by
  obtain ⟨hquote, hnested, hbacktick⟩ := top_iff.mp h.top
  have hmarked := h.marked
  simp only [Marked, List.mem_cons, List.not_mem_nil, or_false, not_or] at hmarked
  obtain ⟨h1, h2, h3, h4, h5⟩ := hmarked
  have hword : ¬ (c = '#' ∧ ({ s with chars := rest } : Scanner).startsWord = true) := by
    rintro ⟨hc, hstarts⟩
    exact Bool.noConfusion ((h.hash hc).symm.trans hstarts)
  have hhere : ¬ (c = '<' ∧ rest.head? = some '<') := by
    rintro ⟨hc, hnext⟩
    exact h.less hc hnext
  rw [step_unquoted hquote hchars]
  rw [unquoted, if_neg h1, if_neg (by simp [h2, h3]), if_neg h4, if_neg (by simp [h5]),
    if_neg (by simp [hnested]), if_neg (by simp [hnested]), if_neg (by simp [hnested, hbacktick]),
    if_neg hword, if_neg hhere]

theorem takes_operator {token : Token} (text : List Char) (h : s.Operates c (text ++ rest))
    (htext : token.text = c :: text)
    (htake : ({ s with chars := text ++ rest } : Scanner).operator c = s.take token rest) :
    s.Takes token rest := by
  rw [Takes, htext, ← htake]
  exact .one (step_operator (s := { s with chars := c :: (text ++ rest) })
    ⟨h.top, h.marked, h.hash, h.less⟩ rfl)

/-- A sign that is neither a `#` nor a `<`, nor marked. -/
theorem operates (htop : s.top = true) (hmarked : ¬ Marked c) (hhash : c ≠ '#') (hless : c ≠ '<') :
    s.Operates c rest := ⟨htop, hmarked, fun hc => absurd hc hhash, fun hc => absurd hc hless⟩

/-- A sign that ends no command is pushed. -/
theorem reads_sign (htop : s.top = true) (hmarked : ¬ Marked c)
    (hends : c ∉ ['\n', ';', '&', '|', '<']) (hhash : c = '#' → s.startsWord = false) :
    s.Reads (s.sign c) fun _ => True := by
  intro t halike rest _
  have h := halike c rfl
  simp only [List.mem_cons, List.not_mem_nil, or_false, not_or] at hends
  obtain ⟨h1, h2, h3, h4, h5⟩ := hends
  refine takes_operator []
    ⟨h.top htop, hmarked, fun hc => (h.word hc).trans (hhash hc), fun hc => absurd hc h5⟩ rfl ?_
  rw [take_sign h]
  simp [operator, push, h1, h2, h3, h4]

/-- A `<` that opens no heredoc. -/
theorem reads_less (htop : s.top = true) : s.Reads (s.sign '<') fun x => x ≠ '<' := by
  intro t halike rest hfits
  have h := halike '<' rfl
  refine takes_operator [] ⟨h.top htop, by simp [Marked], fun hc => absurd hc (by decide),
    fun _ hhead => hfits '<' hhead rfl⟩ rfl ?_
  rw [take_sign h]
  simp [operator, push]

/-- A `&` behind a redirection's sign. -/
theorem reads_duplicate (htop : s.top = true) (hredirects : s.redirects = true) :
    s.Reads (s.sign '&') fun x => x ≠ '&' := by
  intro t halike rest hfits
  have h := halike '&' rfl
  have hnext : rest.head? ≠ some '&' := fun hhead => hfits '&' hhead rfl
  have hends : ({ t with chars := rest } : Scanner).redirects = true := h.redirects.trans hredirects
  refine takes_operator [] (operates (h.top htop) (by simp [Marked]) (by decide) (by decide))
    rfl ?_
  rw [take_sign h]
  simp [operator, push, hnext, hends]

/-- A `&` before a `>`, and that sign. -/
theorem reads_both (htop : s.top = true) :
    s.Reads ⟨['&', '>'], .none, s.nested, s.backtick, []⟩ fun _ => True := by
  intro t halike rest _
  have h := halike '&' rfl
  have ht := h.top htop
  have hfirst : step { t with chars := '&' :: '>' :: rest } =
      some { t.push ['&'] with chars := '>' :: rest } := by
    rw [step_operator (s := { t with chars := '&' :: '>' :: rest })
      (operates ht (by simp [Marked]) (by decide) (by decide)) rfl]
    simp [operator, push]
  have hsecond : step { t.push ['&'] with chars := '>' :: rest } =
      some (t.take ⟨['&', '>'], .none, s.nested, s.backtick, []⟩ rest) := by
    rw [step_operator (s := { t.push ['&'] with chars := '>' :: rest })
      (operates ht (by simp [Marked]) (by decide) (by decide)) rfl]
    simp [operator, take, push, ← h.nested, ← h.backtick, (top_iff.mp ht).1]
  exact (Scan.Reaches.one hfirst).trans (Scan.Reaches.one hsecond)

/-! ### Heredocs -/

/-- The blanks a heredoc's delimiter stands behind. -/
def blanks (chars : List Char) : List Char := chars.takeWhile isBlank

/-- A heredoc's delimiter as it is written. -/
def word (chars : List Char) : List Char := (chars.dropWhile isBlank).takeWhile inWord

/-- What is left behind a heredoc's delimiter. -/
def behind (chars : List Char) : List Char := (chars.dropWhile isBlank).dropWhile inWord

/-- The delimiter noted, where it has any sign but quotes. -/
def noted (word : List Char) : List (List Char) :=
  let delimiter : List Char := word.filter fun c => !(c ∈ ['\'', '"', '\\'])
  if delimiter.isEmpty then [] else [delimiter]

theorem delimiter_eq (s : Scanner) :
    s.delimiter = { s with
      chars := behind s.chars
      current := s.current ++ (blanks s.chars ++ word s.chars)
      heredocs := s.heredocs ++ noted (word s.chars) } := by
  have hnotes : ∀ (s : Scanner) (name : List Char),
      (if name.isEmpty then s else { s with heredocs := s.heredocs ++ [name] }) =
        { s with heredocs := s.heredocs ++ if name.isEmpty then [] else [name] } := fun s name => by
    split <;> simp
  rw [delimiter, hnotes]
  simp [pushWhile, push, blanks, word, behind, noted]

theorem blanks_append_word (chars : List Char) :
    blanks chars ++ word chars ++ behind chars = chars := by
  rw [blanks, word, behind, List.append_assoc, List.takeWhile_append_dropWhile,
    List.takeWhile_append_dropWhile]

/-- A delimiter is read alike with what is behind it, or the end, behind it. -/
theorem delimiter_stable {chars k : List Char} (hk : Fits (fun x => (behind chars).head? = some x) k) :
    blanks (blanks chars ++ word chars ++ k) = blanks chars ∧
      word (blanks chars ++ word chars ++ k) = word chars ∧
      behind (blanks chars ++ word chars ++ k) = k := by
  have hwords := Text.takeWhile_append_stable (p := inWord) (l := chars.dropWhile isBlank) hk
  have hboth : word chars ++ behind chars = chars.dropWhile isBlank :=
    List.takeWhile_append_dropWhile
  have hblanks := Text.takeWhile_append_stable (p := isBlank) (l := chars) (k := word chars ++ k) (by
    intro x hx
    rw [← hboth]
    cases hword : word chars with
    | nil =>
      rw [hword] at hx
      exact hk x hx
    | cons y rest =>
      rw [hword] at hx
      exact hx)
  rw [List.append_assoc]
  refine ⟨hblanks.1, ?_, ?_⟩
  · rw [word, show (blanks chars ++ (word chars ++ k)).dropWhile isBlank = word chars ++ k from
      hblanks.2]
    exact hwords.1
  · rw [behind, show (blanks chars ++ (word chars ++ k)).dropWhile isBlank = word chars ++ k from
      hblanks.2]
    exact hwords.2

theorem step_heredoc (htop : s.top = true) (hchars : s.chars = '<' :: '<' :: rest) :
    step s = some (({ s with chars := '<' :: rest } : Scanner).heredoc) := by
  obtain ⟨hquote, hnested, hbacktick⟩ := top_iff.mp htop
  rw [step_unquoted hquote hchars]
  simp [unquoted, hnested, hbacktick]

/-- A here-string. -/
theorem reads_string (htop : s.top = true) :
    s.Reads ⟨['<', '<', '<'], .none, s.nested, s.backtick, []⟩ fun _ => True := by
  intro t halike rest _
  have h := halike '<' rfl
  refine .one ((step_heredoc (s := { t with chars := '<' :: '<' :: '<' :: rest }) (h.top htop) rfl).trans ?_)
  simp [heredoc, take, push, ← h.nested, ← h.backtick, (top_iff.mp (h.top htop)).1]

/-- What a heredoc's sign reads: the sign and the delimiter behind it. -/
def here (s : Scanner) (lead chars : List Char) : Token :=
  ⟨lead ++ (blanks chars ++ word chars), s.quote, s.nested, s.backtick, noted (word chars)⟩

/-- The signs that open a heredoc, before what is ahead of them. -/
def Opens (lead chars : List Char) : Prop :=
  lead = ['<', '<', '-'] ∨ lead = ['<', '<'] ∧ chars.head? ≠ some '<' ∧ chars.head? ≠ some '-'

theorem heredoc_of_opens {lead : List Char} (hopens : Opens lead rest)
    (hchars : s.chars = lead.tail ++ rest) :
    s.heredoc = delimiter { s.push lead with chars := rest } := by
  rcases hopens with rfl | ⟨rfl, hstring, hdash⟩
  · rw [heredoc, hchars]
    rfl
  · rw [heredoc, hchars]
    split
    · next heq => exact absurd (congrArg List.head? heq) hstring
    · next heq => exact absurd (congrArg List.head? heq) hdash
    · rfl

theorem reads_here {lead chars : List Char} (htop : s.top = true) (hopens : Opens lead chars) :
    s.Reads (s.here lead chars) fun x => (behind chars).head? = some x := by
  intro t halike rest hrest
  have hfirst : (s.here lead chars).text.head? = some '<' := by
    rcases hopens with rfl | ⟨rfl, -⟩ <;> rfl
  have h := halike '<' hfirst
  obtain ⟨hblanks, hword, hbehind⟩ := delimiter_stable hrest
  have hstable : Opens lead (blanks chars ++ word chars ++ rest) := by
    refine hopens.imp_right fun ⟨hlead, hnext⟩ => ⟨hlead, ?_⟩
    have hchars := blanks_append_word chars
    cases htext : blanks chars ++ word chars with
    | nil =>
      rw [htext] at hchars
      rw [List.nil_append]
      cases hrest' : rest.head? with
      | none => exact ⟨nofun, nofun⟩
      | some x =>
        rw [← hrest x hrest', show behind chars = chars from hchars]
        exact hnext
    | cons x text =>
      rw [htext] at hchars
      rw [← hchars] at hnext
      exact hnext
  have hlead : ∃ tail, lead = '<' :: '<' :: tail := by
    rcases hopens with rfl | ⟨rfl, -⟩ <;> exact ⟨_, rfl⟩
  obtain ⟨tail, rfl⟩ := hlead
  have hchars : (s.here ('<' :: '<' :: tail) chars).text ++ rest =
      '<' :: '<' :: (tail ++ (blanks chars ++ word chars ++ rest)) := by simp [here]
  refine .one ((step_heredoc (s := { t with chars := (s.here ('<' :: '<' :: tail) chars).text ++ rest })
    (h.top htop) hchars).trans ?_)
  rw [heredoc_of_opens hstable rfl, delimiter_eq]
  simp only [hblanks, hword, hbehind]
  simp only [take, here, push, List.append_assoc, ← h.quote, ← h.nested, ← h.backtick]

/-! ## What is left of a token when the command is trimmed -/

/-- The token is whitespace alone, or what is left of it trimmed is read where a script ends. -/
def Trims (s : Scanner) (token : Token) : Prop :=
  (∀ x ∈ token.text, isWhitespace x = true) ∨
    ∃ left : Token, left.text = token.text.rdropWhile isWhitespace ∧ left.text ≠ [] ∧
      s.Reads left fun _ => False

theorem trims_of_reads {token : Token} {free : Char → Prop} (text : List Char)
    (h : s.Reads token free) (htext : token.text = text ++ [c]) (hc : isWhitespace c = false) :
    s.Trims token := by
  refine .inr ⟨token, ?_, ?_, h.mono fun _ => False.elim⟩
  · rw [htext, List.rdropWhile_concat_neg _ _ _ (by simp [hc])]
  · rw [htext]
    exact List.append_ne_nil_of_right_ne_nil _ (List.cons_ne_nil _ _)

/-- A token of one sign is whitespace, or has none to trim. -/
theorem trims_one {token : Token} {free : Char → Prop} (h : s.Reads token free)
    (htext : token.text = [c]) : s.Trims token := by
  cases hc : isWhitespace c with
  | false => exact trims_of_reads [] h htext hc
  | true =>
    refine .inl fun x hx => ?_
    rw [htext, List.mem_singleton] at hx
    rw [hx, hc]

/-- An escaped sign is whitespace that only the `\` is left of, or none to trim. -/
theorem trims_escape {token : Token} {free : Char → Prop} (h : s.Reads token free)
    (hlast : s.Reads (s.sign '\\') fun _ => False) (htext : token.text = ['\\', c]) :
    s.Trims token := by
  cases hc : isWhitespace c with
  | false => exact trims_of_reads ['\\'] h htext hc
  | true =>
    refine .inr ⟨s.sign '\\', ?_, List.cons_ne_nil _ _, hlast⟩
    rw [htext, show ['\\', c] = ['\\'] ++ [c] from rfl, List.rdropWhile_concat_pos _ _ _ hc,
      List.rdropWhile_singleton]
    rfl

theorem blanks_whitespace {chars : List Char} : ∀ x ∈ blanks chars, isWhitespace x = true := by
  intro x hx
  have hblank := List.mem_takeWhile_imp hx
  rw [isBlank, Bool.or_eq_true, decide_eq_true_eq, decide_eq_true_eq] at hblank
  rcases hblank with rfl | rfl <;> decide

theorem trims_here {lead chars : List Char} (htop : s.top = true) (hopens : Opens lead chars) :
    s.Trims (s.here lead chars) := by
  have hlead : ∃ front c, lead = front ++ [c] ∧ isWhitespace c = false := by
    rcases hopens with rfl | ⟨rfl, -⟩
    · exact ⟨['<', '<'], '-', rfl, by decide⟩
    · exact ⟨['<'], '<', rfl, by decide⟩
  obtain ⟨front, c, hfront, hc⟩ := hlead
  cases hword : (word chars).reverse with
  | nil =>
    have hnil : word chars = [] := List.reverse_eq_nil_iff.mp hword
    have halone : Opens lead [] := hopens.imp_right fun ⟨h, _⟩ => ⟨h, nofun, nofun⟩
    refine .inr ⟨s.here lead [], ?_, ?_, (reads_here htop halone).mono fun _ => False.elim⟩
    · rw [here, here, hnil, List.append_nil, hfront, Text.rdropWhile_append_all blanks_whitespace,
        List.rdropWhile_concat_neg _ _ _ (by simp [hc])]
      exact List.append_nil _
    · rw [here, hfront]
      simp
  | cons x back =>
    have hword' : word chars = back.reverse ++ [x] := by
      rw [← List.reverse_reverse (word chars), hword, List.reverse_cons]
    have hx : inWord x = true := List.mem_takeWhile_imp (by
      show x ∈ word chars
      rw [hword']
      simp)
    refine trims_of_reads (lead ++ (blanks chars ++ back.reverse)) (c := x)
      (reads_here htop hopens) ?_ ?_
    · rw [here, hword']
      simp
    · rw [inWord, Bool.and_eq_true, Bool.not_eq_true'] at hx
      exact hx.1

end

end Scanner

end Yunta.Shell
