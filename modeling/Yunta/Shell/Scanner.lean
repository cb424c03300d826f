/-
  A shell script read the way a shell splits it into commands.

  1. **The scanner** — one character at a time, it keeps the quote it is inside, how deep in `$( … )`
     it is, whether it is in a backquoted substitution, and the heredocs the current line opens.

  2. **Two splits** — `pipelines` cuts at a newline, `;`, `&`, `&&` and `||`, and `simpleCommands` at
     `|` as well.

  3. **What one step reads** — `Takes`: a step adds a piece of text to the command being read, and one
     lemma for each kind of sign says so of any scanner in the mode the sign is read in.
-/
import Mathlib.Data.List.DropRight
import Yunta.Lib.Scan
import Yunta.Lib.Text

set_option linter.unusedVariables false

namespace Yunta.Shell

open Text (isWhitespace)

/-! ## The scanner -/

/-- Whether `|` separates what the scanner hands back. -/
inductive Split where
  | pipelines | commands
  deriving DecidableEq

/-- The quote the scanner is inside. -/
inductive Quote where
  | none | single | double
  deriving DecidableEq

@[ext] structure Scanner where
  chars : List Char
  split : Split
  current : List Char
  commands : List (List Char)
  quote : Quote
  /-- How deep inside `$( … )` the scanner is. -/
  nested : Nat
  /-- Whether it is inside a backquoted substitution. -/
  backtick : Bool
  /-- The delimiters of the heredocs the current line opens, whose bodies follow it. -/
  heredocs : List (List Char)
  deriving DecidableEq

/-- `str::trim`, of the characters. -/
def trimmed (text : List Char) : List Char := (text.dropWhile isWhitespace).rdropWhile isWhitespace

/-- Passes over a heredoc's body: the lines up to the one that is its delimiter, or to the end. -/
def skipBody (delimiter line : List Char) : List Char → List Char
  | [] => []
  | c :: rest =>
    if c = '\n' then
      if trimmed line = delimiter then rest else skipBody delimiter [] rest
    else skipBody delimiter (line ++ [c]) rest

/-- A blank a heredoc's delimiter may stand behind. -/
def isBlank (c : Char) : Bool := c = ' ' || c = '\t'

/-- A sign of a heredoc's delimiter. -/
def inWord (c : Char) : Bool := !isWhitespace c && !(c ∈ [';', '&', '|', '<', '>'])

namespace Scanner

def new (script : List Char) (split : Split) : Scanner := ⟨script, split, [], [], .none, 0, false, []⟩

def push (s : Scanner) (text : List Char) : Scanner := { s with current := s.current ++ text }

/-- Ends the command being read. -/
def finish (s : Scanner) : Scanner :=
  { s with
    commands := if trimmed s.current = [] then s.commands else s.commands ++ [trimmed s.current]
    current := [] }

/-- Takes `c` inside a quote, or answers that it is in none. -/
def quoted (s : Scanner) (c : Char) : Option Scanner :=
  match s.quote with
  | .none => none
  | .single => some (if c = '\'' then { s.push [c] with quote := .none } else s.push [c])
  | .double =>
    if c = '"' then some { s.push [c] with quote := .none }
    else if c = '\\' then
      match s.chars with
      | [] => some (s.push [c])
      | escaped :: rest => some { s.push [c, escaped] with chars := rest }
    else some (s.push [c])

/-- Passes over the bodies of the heredocs the line just ended opened. -/
def skipHeredocBodies (s : Scanner) : Scanner :=
  { s with
    chars := s.heredocs.foldl (fun chars delimiter => skipBody delimiter [] chars) s.chars
    heredocs := [] }

/-- Pushes the signs ahead that `p` holds of. -/
def pushWhile (s : Scanner) (p : Char → Bool) : Scanner :=
  { s.push (s.chars.takeWhile p) with chars := s.chars.dropWhile p }

/-- Reads a heredoc's delimiter, which may stand behind blanks, and notes it. -/
def delimiter (s : Scanner) : Scanner :=
  let s := s.pushWhile isBlank
  let delimiter : List Char := (s.chars.takeWhile inWord).filter fun c => !(c ∈ ['\'', '"', '\\'])
  let s := s.pushWhile inWord
  if delimiter.isEmpty then s else { s with heredocs := s.heredocs ++ [delimiter] }

/-- Reads a `<<` the scanner just met, the second `<` still ahead: a here-string, or a heredoc whose
    delimiter it notes. -/
def heredoc (s : Scanner) : Scanner :=
  match s.chars.tail with
  | '<' :: rest => { s.push ['<', '<', '<'] with chars := rest }
  | '-' :: rest => delimiter { s.push ['<', '<', '-'] with chars := rest }
  | rest => delimiter { s.push ['<', '<'] with chars := rest }

/-- Whether the command being read ends in a redirection's sign. -/
def redirects (s : Scanner) : Bool := s.current.getLast? = some '>' || s.current.getLast? = some '<'

/-- Takes `c` where it may separate commands. -/
def operator (s : Scanner) (c : Char) : Scanner :=
  if c = '\n' then s.finish.skipHeredocBodies
  else if c = ';' then s.finish
  else if c = '&' ∧ s.chars.head? = some '&' then { s.finish with chars := s.chars.tail }
  else if c = '&' ∧ (s.chars.head? = some '>' ∨ s.redirects) then s.push [c]
  else if c = '&' then s.finish
  else if c = '|' ∧ s.chars.head? = some '|' then { s.finish with chars := s.chars.tail }
  else if c = '|' ∧ s.split = .commands then
    { s.finish with chars := if s.chars.head? = some '&' then s.chars.tail else s.chars }
  else s.push [c]

/-- Whether a word starts here, which a `#` makes a comment. -/
def startsWord (s : Scanner) : Bool := s.current.getLast?.all isWhitespace

/-- Takes `c` outside any quote. -/
def unquoted (s : Scanner) (c : Char) : Scanner :=
  if c = '\\' then
    match s.chars with
    | [] => s.push [c]
    | escaped :: rest =>
      if escaped = '\n' then { s with chars := rest } else { s.push [c, escaped] with chars := rest }
  else if c = '\'' ∨ c = '"' then
    { s.push [c] with quote := if c = '\'' then .single else .double }
  else if c = '`' then { s.push [c] with backtick := !s.backtick }
  else if c = '$' ∧ s.chars.head? = some '(' then
    { s.push ['$', '('] with chars := s.chars.tail, nested := s.nested + 1 }
  else if c = '(' ∧ 0 < s.nested then { s.push [c] with nested := s.nested + 1 }
  else if c = ')' ∧ 0 < s.nested then { s.push [c] with nested := s.nested - 1 }
  else if 0 < s.nested ∨ s.backtick then s.push [c]
  else if c = '#' ∧ s.startsWord then { s with chars := s.chars.dropWhile fun next => next ≠ '\n' }
  else if c = '<' ∧ s.chars.head? = some '<' then s.heredoc
  else s.operator c

/-- Takes one character, where one is left. -/
def step (s : Scanner) : Option Scanner :=
  match s.chars with
  | [] => none
  | c :: rest =>
    let s := { s with chars := rest }
    some ((s.quoted c).getD (s.unquoted c))

/-- How much is left to read. -/
def size (s : Scanner) : Nat := s.chars.length

/-- The commands of a script, as one split hands them back. -/
def run (script : List Char) (split : Split) : List (List Char) :=
  (Scan.last step size (new script split)).finish.commands

end Scanner

/-- The pipelines of `script`, in order: what a newline, `;`, `&`, `&&` or `||` separates, each trimmed,
    none empty. -/
def pipelines (script : String) : List String :=
  (Scanner.run script.toList .pipelines).map String.ofList

/-- The simple commands of `script`, in order: its pipelines, and within each what `|` separates. -/
def simpleCommands (script : String) : List String :=
  (Scanner.run script.toList .commands).map String.ofList

example : simpleCommands "cargo test 2>&1 | tail -5 &> log & make >&2" =
    ["cargo test 2>&1", "tail -5 &> log", "make >&2"] := by decide +kernel

/-! ## Every step reads on -/

theorem skipBody_length_le (delimiter line chars : List Char) :
    (skipBody delimiter line chars).length ≤ chars.length := by
  induction chars generalizing line with
  | nil => exact Nat.le_refl _
  | cons c rest ih =>
    rw [skipBody]
    split
    · split
      · exact Nat.le_succ _
      · exact Nat.le_succ_of_le (ih [])
    · exact Nat.le_succ_of_le (ih _)

namespace Scanner

variable {s t : Scanner} {c : Char}

theorem skipHeredocBodies_length_le (s : Scanner) :
    s.skipHeredocBodies.chars.length ≤ s.chars.length := by
  show (s.heredocs.foldl _ s.chars).length ≤ _
  generalize s.chars = chars
  induction s.heredocs generalizing chars with
  | nil => exact Nat.le_refl _
  | cons delimiter rest ih => exact (ih _).trans (skipBody_length_le delimiter [] chars)

theorem pushWhile_length_le (s : Scanner) (p : Char → Bool) :
    (s.pushWhile p).chars.length ≤ s.chars.length := (List.dropWhile_suffix p).length_le

theorem delimiter_length_le (s : Scanner) : s.delimiter.chars.length ≤ s.chars.length := by
  have hwords : ((s.pushWhile isBlank).pushWhile inWord).chars.length ≤ s.chars.length :=
    (pushWhile_length_le _ _).trans (pushWhile_length_le _ _)
  rw [delimiter]
  split <;> exact hwords

theorem heredoc_length_le (s : Scanner) : s.heredoc.chars.length ≤ s.chars.length := by
  have htail : s.chars.tail.length ≤ s.chars.length := by simp
  unfold heredoc
  split
  · next rest hrest =>
    rw [hrest] at htail
    exact (Nat.le_succ _).trans htail
  · next rest hrest =>
    rw [hrest] at htail
    exact (delimiter_length_le _).trans ((Nat.le_succ _).trans htail)
  · exact (delimiter_length_le _).trans htail

theorem length_ite_le {p : Prop} [Decidable p] {n : Nat} (hs : s.chars.length ≤ n)
    (ht : t.chars.length ≤ n) : (if p then s else t).chars.length ≤ n := by
  split
  · exact hs
  · exact ht

theorem operator_length_le (s : Scanner) (c : Char) :
    (s.operator c).chars.length ≤ s.chars.length := by
  have htail : s.chars.tail.length ≤ s.chars.length := by simp
  have hrest : s.chars.length ≤ s.chars.length := Nat.le_refl _
  have hboth : (if s.chars.head? = some '&' then s.chars.tail else s.chars).length ≤
      s.chars.length := by
    split
    · exact htail
    · exact hrest
  exact length_ite_le (skipHeredocBodies_length_le _) <| length_ite_le hrest <|
    length_ite_le htail <| length_ite_le hrest <| length_ite_le hrest <| length_ite_le htail <|
    length_ite_le hboth hrest

theorem unquoted_length_le (s : Scanner) (c : Char) :
    (s.unquoted c).chars.length ≤ s.chars.length := by
  have hrest : s.chars.length ≤ s.chars.length := Nat.le_refl _
  refine length_ite_le ?_ <| length_ite_le hrest <| length_ite_le hrest <|
    length_ite_le (by simp) <| length_ite_le hrest <| length_ite_le hrest <| length_ite_le hrest <|
    length_ite_le (List.dropWhile_suffix _).length_le <| length_ite_le (heredoc_length_le s) <|
    operator_length_le s c
  split
  · exact hrest
  · next hchars =>
    rw [hchars]
    exact length_ite_le (Nat.le_succ _) (Nat.le_succ _)

theorem quoted_length_le (h : s.quoted c = some t) : t.chars.length ≤ s.chars.length := by
  unfold quoted at h
  split at h
  · cases h
  · obtain rfl := Option.some.inj h
    split <;> exact Nat.le_refl _
  · split at h
    · obtain rfl := Option.some.inj h
      exact Nat.le_refl _
    · split at h
      · split at h
        · obtain rfl := Option.some.inj h
          exact Nat.le_refl _
        · next hchars =>
          obtain rfl := Option.some.inj h
          rw [hchars]
          exact Nat.le_succ _
      · obtain rfl := Option.some.inj h
        exact Nat.le_refl _

/-- **Every step reads on.** -/
theorem step_shrinks : Scan.Shrinks step size := by
  intro s t h
  rw [step] at h
  split at h
  · cases h
  · next c rest hchars =>
    have hlen : size s = rest.length + 1 := by rw [size, hchars, List.length_cons]
    obtain rfl := Option.some.inj h
    rw [hlen]
    refine Nat.lt_succ_of_le ?_
    cases hquoted : ({ s with chars := rest } : Scanner).quoted c with
    | none => exact unquoted_length_le _ c
    | some t => exact quoted_length_le hquoted

end Scanner

end Yunta.Shell
