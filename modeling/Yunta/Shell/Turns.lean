/-
  What a step of the split into pipelines does, where the second split will read it alike.

  1. **Steady states** — a joined line may bring two signs together that are one where they stand side
     by side, and a `|` kept in its pipeline may stand before signs it does not end a command before.
     `steady` leaves out the states that read such a sign.

  2. **Main result** — `turn`: in a steady state a step joins two lines, reads a comment, ends a
     command or a line, keeps a separating `|`, or reads a token any scanner alike reads.
-/
import Yunta.Shell.Reading

set_option linter.unusedVariables false

namespace Yunta.Shell

open Text (isWhitespace)

/-! ## Steady states -/

/-- The signs ahead, with the lines a `\` joins joined. -/
def joined : List Char → List Char
  | [] => []
  | '\\' :: '\n' :: rest => joined rest
  | c :: rest => c :: rest

/-- A joined line brings `x` next to what stands before `rest`. -/
def Glues (rest : List Char) (x : Char) : Prop :=
  rest.head? ≠ some x ∧ (joined rest).head? = some x

instance (rest : List Char) (x : Char) : Decidable (Glues rest x) :=
  inferInstanceAs (Decidable (_ ∧ _))

/-- Whether the signs ahead end a command, by whether it ends in a redirection's sign. -/
def cuts (redirects : Bool) : List Char → Bool
  | '\n' :: _ => true
  | ';' :: _ => true
  | '&' :: rest => rest.head? = some '&' || !(rest.head? = some '>' || redirects)
  | '|' :: rest => rest.head? = some '|'
  | _ => false

/-- What stands behind a separating `|` is read alike whether the `|` ends a command or not: no comment,
    no sign a joined line brings next to it, and of a row of `&` before a `>` at most one. -/
def Apart (rest : List Char) : Prop :=
  (joined rest).head? ≠ some '#' ∧
    (Glues rest '&' ∨ Glues rest '|' → cuts false (joined rest) = true) ∧
    ((rest.dropWhile (· = '&')).head? = some '>' → (rest.takeWhile (· = '&')).length ≤ 1)

instance (rest : List Char) : Decidable (Apart rest) := inferInstanceAs (Decidable (_ ∧ _))

namespace Scanner

/-- The sign ahead is one the second split reads as this one does. -/
def steady (s : Scanner) : Bool :=
  match s.chars with
  | '$' :: rest => s.quote ≠ .none || s.nested ≠ 0 || ¬ Glues rest '('
  | '<' :: rest => !s.top || ¬ Glues rest '<'
  | '&' :: rest => !s.top || !s.redirects || ¬ Glues rest '&' || cuts false (joined rest)
  | '|' :: rest => !s.top || rest.head? = some '|' || Apart rest
  | _ => true

/-- What is ahead: outside quotes, behind the lines joined. -/
def ahead (s : Scanner) : List Char := if s.quote = .none then joined s.chars else s.chars

/-- The signs ahead end the command being read. -/
def Cut (s : Scanner) : Prop := s.top = true ∧ cuts s.redirects s.ahead = true

/-- What one step does. -/
inductive Turn (s : Scanner) : Prop
  | ended (hchars : s.chars = [])
  | join (rest : List Char) (hquote : s.quote = .none) (hchars : s.chars = '\\' :: '\n' :: rest)
  | comment (rest : List Char) (htop : s.top = true) (hchars : s.chars = '#' :: rest)
      (hword : s.startsWord = true)
  | line (rest : List Char) (htop : s.top = true) (hchars : s.chars = '\n' :: rest)
  | cut (c : Char) (after rest : List Char) (htop : s.top = true) (hchars : s.chars = c :: after)
      (hhash : c ≠ '#')
      (hcut : ∀ t, Alike c s t → t.chars = s.chars → step t = some { t.finish with chars := rest })
  | bar (rest : List Char) (htop : s.top = true) (hchars : s.chars = '|' :: rest)
      (hnext : rest.head? ≠ some '|') (hapart : Apart rest)
  | token (token : Token) (free : Char → Prop) (rest : List Char)
      (htext : token.text ≠ []) (hhead : s.ahead.head? = token.text.head?) (hstays : ¬ s.Cut)
      (hreach : ∀ t, (∀ x, token.text.head? = some x → Alike x s t) → t.chars = s.chars →
        Scan.Reaches step t (t.take token rest))
      (hreads : s.Reads token free)
      (hfree : Fits (fun x => free x ∨ (s.take token rest).Cut) (s.take token rest).ahead)
      (htrims : s.Trims token)

/-! ## Every step -/

section
variable {s : Scanner} {c : Char} {rest : List Char}

theorem joined_cons (h : c = '\\' → rest.head? ≠ some '\n') : joined (c :: rest) = c :: rest := by
  unfold joined
  split
  · next heq => cases heq
  · next heq =>
    obtain ⟨rfl, rfl⟩ := List.cons.inj heq
    exact absurd rfl (h rfl)
  · next heq => exact heq.symm

theorem ahead_cons (hchars : s.chars = c :: rest)
    (h : s.quote = .none → c = '\\' → rest.head? ≠ some '\n') : s.ahead = c :: rest := by
  rw [ahead, hchars]
  split
  · next hquote => exact joined_cons (h hquote)
  · rfl

/-- A sign that is no backslash joins no line. -/
theorem ahead_of_ne (hchars : s.chars = c :: rest) (h : c ≠ '\\') : s.ahead = c :: rest :=
  ahead_cons hchars fun _ hc => absurd hc h

theorem not_cut_of_not_top (h : s.top = false) : ¬ s.Cut := fun hcut => by
  rw [hcut.1] at h
  cases h

/-- A token that stands ahead as it is. -/
theorem Turn.of_reads {token : Token} {free : Char → Prop} (hreads : s.Reads token free)
    (hchars : s.chars = token.text ++ rest) (htext : token.text ≠ []) (hhead : s.ahead = s.chars)
    (hstays : ¬ s.Cut) (hnext : Fits free rest)
    (hfree : Fits (fun x => free x ∨ (s.take token rest).Cut) (s.take token rest).ahead)
    (htrims : s.Trims token) : s.Turn := by
  refine .token token free rest htext ?_ hstays (fun t halike ht => ?_) hreads hfree htrims
  · rw [hhead, hchars]
    cases htoken : token.text with
    | nil => exact absurd htoken htext
    | cons x text => rfl
  · have htakes := hreads t halike rest hnext
    rw [Takes, ← hchars, ← ht] at htakes
    exact htakes

theorem fits_true (chars : List Char) (s : Scanner) :
    Fits (fun _ => True ∨ s.Cut) chars := fun _ _ => .inl trivial

theorem turn_single (hquote : s.quote = .single) (hchars : s.chars = c :: rest) : s.Turn := by
  have hreads := reads_single hquote c
  have hne : s.quote ≠ .none := by simp [hquote]
  refine .of_reads hreads hchars (List.cons_ne_nil _ _) ?_ ?_ (fun _ _ => trivial) (fits_true _ _)
    (trims_one hreads rfl)
  · exact if_neg hne
  · exact not_cut_of_not_top (by simp [top, hquote])

theorem turn_double (hquote : s.quote = .double) (hchars : s.chars = c :: rest) : s.Turn := by
  have hahead : s.ahead = s.chars := if_neg (by simp [hquote])
  have hstays : ¬ s.Cut := not_cut_of_not_top (by simp [top, hquote])
  by_cases hc : c = '\\'
  · subst hc
    have hlast := reads_double_last hquote
    cases rest with
    | nil =>
      exact .of_reads hlast hchars (List.cons_ne_nil _ _) hahead hstays (fun _ hx => by cases hx)
        (fun x hx => by simp [ahead, take, sign, hquote] at hx) (trims_one hlast rfl)
    | cons escaped rest =>
      have hreads := reads_double_escape hquote escaped
      exact .of_reads hreads hchars (List.cons_ne_nil _ _) hahead hstays (fun _ _ => trivial)
        (fits_true _ _) (trims_escape hreads hlast rfl)
  · have hreads := reads_double hquote hc
    exact .of_reads hreads hchars (List.cons_ne_nil _ _) hahead hstays (fun _ _ => trivial)
      (fits_true _ _) (trims_one hreads rfl)

/-- A sign outside quotes that ends no command. -/
theorem not_cut_of_sign (hahead : s.ahead = c :: rest) (hc : c ∉ ['\n', ';', '&', '|']) : ¬ s.Cut := by
  rintro ⟨-, hcuts⟩
  simp only [List.mem_cons, List.not_mem_nil, or_false, not_or] at hc
  obtain ⟨h1, h2, h3, h4⟩ := hc
  rw [hahead] at hcuts
  unfold cuts at hcuts
  split at hcuts
  · next heq => exact h1 (List.cons.inj heq).1
  · next heq => exact h2 (List.cons.inj heq).1
  · next heq => exact h3 (List.cons.inj heq).1
  · next heq => exact h4 (List.cons.inj heq).1
  · cases hcuts

theorem turn_backslash (hquote : s.quote = .none) (hchars : s.chars = '\\' :: rest) : s.Turn := by
  have hlast := reads_last hquote
  cases rest with
  | nil =>
    have hahead : s.ahead = ['\\'] := ahead_cons hchars fun _ _ hnext => by cases hnext
    exact .of_reads hlast hchars (List.cons_ne_nil _ _) (hahead.trans hchars.symm)
      (not_cut_of_sign hahead (by decide)) (fun _ hx => by cases hx) (fun x hx => by simp [ahead, take, sign, joined] at hx)
      (trims_one hlast rfl)
  | cons escaped rest =>
    by_cases hline : escaped = '\n'
    · subst hline
      exact .join rest hquote hchars
    · have hahead : s.ahead = '\\' :: escaped :: rest :=
        ahead_cons hchars fun _ _ hhead => hline (Option.some.inj hhead)
      have hreads := reads_escape hquote hline
      exact .of_reads hreads hchars (List.cons_ne_nil _ _) (hahead.trans hchars.symm)
        (not_cut_of_sign hahead (by decide)) (fun _ _ => trivial) (fits_true _ _)
        (trims_escape hreads hlast rfl)

/-- A sign outside quotes that is read whatever follows it, and ends no command. -/
theorem Turn.of_mark {token : Token} (text : List Char)
    (hreads : s.Reads token fun _ => True) (htext : token.text = c :: text)
    (hchars : s.chars = c :: text ++ rest) (hbackslash : c ≠ '\\') (hstays : ¬ s.Cut)
    (htrims : s.Trims token) : s.Turn := by
  have hahead : s.ahead = s.chars :=
    (ahead_cons hchars fun _ hc => absurd hc hbackslash).trans hchars.symm
  exact .of_reads hreads (htext ▸ hchars) (by simp [htext]) hahead hstays (fun _ _ => trivial)
    (fits_true _ _) htrims

theorem step_join (hquote : s.quote = .none) (hchars : s.chars = '\\' :: '\n' :: rest) :
    step s = some { s with chars := rest } := by
  rw [step_unquoted hquote hchars]
  simp [unquoted]

/-- Outside quotes a scanner joins the lines ahead. -/
theorem reaches_joined (hquote : s.quote = .none) (chars : List Char) :
    Scan.Reaches step { s with chars := chars } { s with chars := joined chars } := by
  induction chars using joined.induct with
  | case1 => exact .refl
  | case2 rest ih =>
    have hstep := step_join (s := { s with chars := '\\' :: '\n' :: rest }) hquote rfl
    exact (Scan.Reaches.one hstep).trans ih
  | case3 c rest hjoin =>
    rw [joined_cons fun hc hhead => ?_]
    · exact .refl
    · cases rest with
      | nil => cases hhead
      | cons escaped rest => exact hjoin rest hc (congrArg (· :: rest) (Option.some.inj hhead))

/-- Inside a substitution a `$` and a `(` are read alike side by side and with lines joined between. -/
theorem turn_glued (hquote : s.quote = .none) (hnested : 0 < s.nested) (hchars : s.chars = '$' :: rest)
    (hglues : Glues rest '(') : s.Turn := by
  have hahead : s.ahead = '$' :: rest := ahead_of_ne hchars (by decide)
  obtain ⟨hnext, hjoined⟩ := hglues
  cases hrest : joined rest with
  | nil =>
    rw [hrest] at hjoined
    cases hjoined
  | cons x after =>
    rw [hrest] at hjoined
    obtain rfl := Option.some.inj hjoined
    have hreads := reads_substitution hquote
    refine .token _ _ after (List.cons_ne_nil _ _) (by rw [hahead]; rfl)
      (not_cut_of_sign hahead (by decide)) (fun t halike ht => ?_) hreads (fits_true _ _)
      (trims_of_reads ['$'] hreads rfl (by decide))
    have h := halike '$' rfl
    have htquote : t.quote = .none := h.quote.trans hquote
    have hdollar := reads_dollar hquote t (fun x hx => by rwa [← Option.some.inj hx]) rest
      fun x hx hparen => hnext (hparen ▸ hx)
    rw [Takes, take_sign h, show (s.sign '$').text ++ rest = t.chars from (ht.trans hchars).symm]
      at hdollar
    have hlines := reaches_joined (s := t.push ['$']) htquote rest
    rw [hrest] at hlines
    have hparen := reads_deeper (s := t.push ['$']) htquote (h.nested ▸ hnested) (t.push ['$'])
      (fun x _ => .refl x _) after fun _ _ => trivial
    refine (hdollar.trans (hlines.trans hparen)).trans ?_
    rw [show (t.push ['$']).take ⟨['('], .none, (t.push ['$']).nested + 1, (t.push ['$']).backtick, []⟩
      after = t.take ⟨['$', '('], .none, s.nested + 1, s.backtick, []⟩ after by
        simp [take, push, ← h.nested, ← h.backtick]]

theorem turn_dollar (hquote : s.quote = .none) (hsteady : s.steady = true)
    (hchars : s.chars = '$' :: rest) : s.Turn := by
  have hahead : s.ahead = '$' :: rest := ahead_of_ne hchars (by decide)
  have hstays := not_cut_of_sign hahead (by decide)
  by_cases hparen : rest.head? = some '('
  · cases rest with
    | nil => cases hparen
    | cons x rest =>
      obtain rfl := Option.some.inj hparen
      have hreads := reads_substitution hquote
      exact .of_mark ['('] hreads rfl hchars (by decide) hstays
        (trims_of_reads ['$'] hreads rfl (by decide))
  · by_cases hglues : Glues rest '('
    · refine turn_glued hquote (Nat.pos_of_ne_zero fun hzero => ?_) hchars hglues
      rw [steady, hchars] at hsteady
      simp [hquote, hzero, hglues] at hsteady
    · have hreads := reads_dollar hquote
      refine .of_reads hreads hchars (List.cons_ne_nil _ _) (hahead.trans hchars.symm) hstays
        (fun x hx hc => hparen (hc ▸ hx)) (fun x hx => .inl fun hc => ?_) (trims_one hreads rfl)
      rw [ahead, if_pos (show (s.take (s.sign '$') rest).quote = .none from hquote)] at hx
      exact hglues ⟨hparen, hc ▸ hx⟩

theorem turn_inside (hquote : s.quote = .none) (hin : 0 < s.nested ∨ s.backtick = true)
    (hmarked : ¬ Marked c) (hchars : s.chars = c :: rest) : s.Turn := by
  have hstays : ¬ s.Cut := not_cut_of_not_top (by
    rw [← Bool.not_eq_true, top_iff]
    rintro ⟨-, hnested, hbacktick⟩
    rcases hin with hin | hin
    · omega
    · rw [hbacktick] at hin
      cases hin)
  have hbackslash : c ≠ '\\' := fun hc => hmarked (hc ▸ by simp [Marked])
  by_cases hopen : 0 < s.nested ∧ c = '('
  · obtain ⟨hnested, rfl⟩ := hopen
    have hreads := reads_deeper hquote hnested
    exact .of_mark [] hreads rfl hchars hbackslash hstays (trims_one hreads rfl)
  · by_cases hclose : 0 < s.nested ∧ c = ')'
    · obtain ⟨hnested, rfl⟩ := hclose
      have hreads := reads_back hquote hnested
      exact .of_mark [] hreads rfl hchars hbackslash hstays (trims_one hreads rfl)
    · have hreads := reads_inside hquote hin hmarked fun hnested =>
        ⟨fun hc => hopen ⟨hnested, hc⟩, fun hc => hclose ⟨hnested, hc⟩⟩
      exact .of_mark [] hreads rfl hchars hbackslash hstays (trims_one hreads rfl)

/-! ### Outside quotes and substitutions -/

theorem step_comment (htop : s.top = true) (hword : s.startsWord = true)
    (hchars : s.chars = '#' :: rest) :
    step s = some { s with chars := rest.dropWhile fun next => next ≠ '\n' } := by
  obtain ⟨hquote, hnested, hbacktick⟩ := top_iff.mp htop
  have hstarts : ({ s with chars := rest } : Scanner).startsWord = true := hword
  rw [step_unquoted hquote hchars, unquoted, if_neg (by decide), if_neg (by decide), if_neg (by decide),
    if_neg (by simp), if_neg (by simp), if_neg (by simp), if_neg (by simp [hnested, hbacktick]),
    if_pos ⟨rfl, hstarts⟩]

theorem step_line (htop : s.top = true) (hchars : s.chars = '\n' :: rest) :
    step s = some ({ s.finish with chars := rest } : Scanner).skipHeredocBodies := by
  rw [step_operator (operates htop (by simp [Marked]) (by decide) (by decide)) hchars]
  simp [operator, finish]

theorem turn_hash (htop : s.top = true) (hchars : s.chars = '#' :: rest) : s.Turn := by
  cases hword : s.startsWord with
  | true => exact .comment rest htop hchars hword
  | false =>
    have hreads := reads_sign htop (c := '#') (by simp [Marked]) (by decide) fun _ => hword
    exact .of_mark [] hreads rfl hchars (by decide)
      (not_cut_of_sign (ahead_of_ne hchars (by decide)) (by decide)) (trims_one hreads rfl)

/-- What is left behind a heredoc's delimiter is no line to join. -/
theorem joined_behind (chars : List Char) : joined (behind chars) = behind chars := by
  cases hbehind : behind chars with
  | nil => rfl
  | cons x after =>
    refine joined_cons fun hx => ?_
    have hnot := List.head?_dropWhile_not inWord (chars.dropWhile isBlank)
    rw [show (chars.dropWhile isBlank).dropWhile inWord = x :: after from hbehind, hx] at hnot
    exact absurd hnot (show ¬ inWord '\\' = false by decide)

theorem turn_here {lead chars : List Char} (htop : s.top = true) (hopens : Opens lead chars)
    (hchars : s.chars = lead ++ chars) : s.Turn := by
  have hlead : ∃ tail, lead = '<' :: tail := by
    rcases hopens with rfl | ⟨rfl, -⟩ <;> exact ⟨_, rfl⟩
  obtain ⟨tail, rfl⟩ := hlead
  have hahead : s.ahead = '<' :: (tail ++ chars) := ahead_of_ne hchars (by decide)
  have hsplit : s.chars = (s.here ('<' :: tail) chars).text ++ behind chars := by
    rw [hchars, here, List.append_assoc, blanks_append_word]
  refine .of_reads (reads_here htop hopens) hsplit (List.cons_ne_nil _ _) (hahead.trans hchars.symm)
    (not_cut_of_sign hahead (by decide)) (fun x hx => hx) (fun x hx => .inl ?_) (trims_here htop hopens)
  rw [ahead, if_pos (show (s.take (s.here _ chars) (behind chars)).quote = .none from
    (top_iff.mp htop).1)] at hx
  exact (joined_behind chars) ▸ hx

theorem turn_less (htop : s.top = true) (hsteady : s.steady = true) (hchars : s.chars = '<' :: rest) :
    s.Turn := by
  have hahead : s.ahead = '<' :: rest := ahead_of_ne hchars (by decide)
  have hstays := not_cut_of_sign hahead (by decide)
  by_cases hless : rest.head? = some '<'
  · cases rest with
    | nil => cases hless
    | cons x rest =>
      obtain rfl := Option.some.inj hless
      by_cases hstring : rest.head? = some '<'
      · cases rest with
        | nil => cases hstring
        | cons x rest =>
          obtain rfl := Option.some.inj hstring
          have hreads := reads_string htop
          exact .of_mark ['<', '<'] hreads rfl hchars (by decide) hstays
            (trims_of_reads ['<', '<'] hreads rfl (by decide))
      · by_cases hdash : rest.head? = some '-'
        · cases rest with
          | nil => cases hdash
          | cons x rest =>
            obtain rfl := Option.some.inj hdash
            exact turn_here htop (.inl rfl) hchars
        · exact turn_here htop (.inr ⟨rfl, hstring, hdash⟩) hchars
  · have hglues : ¬ Glues rest '<' := by
      rw [steady, hchars] at hsteady
      simpa [htop] using hsteady
    have hreads := reads_less htop
    refine .of_reads hreads hchars (List.cons_ne_nil _ _) (hahead.trans hchars.symm) hstays
      (fun x hx hc => hless (hc ▸ hx)) (fun x hx => .inl fun hc => ?_) (trims_one hreads rfl)
    rw [ahead, if_pos (show (s.take (s.sign '<') rest).quote = .none from (top_iff.mp htop).1)] at hx
    exact hglues ⟨hless, hc ▸ hx⟩

/-- A sign that ends the command in every scanner alike. -/
theorem Turn.of_operator {after : List Char} (rest : List Char) (htop : s.top = true) (hmarked : ¬ Marked c)
    (hhash : c ≠ '#') (hless : c ≠ '<') (hchars : s.chars = c :: after)
    (h : ∀ t, Alike c s t → ({ t with chars := after } : Scanner).operator c =
      { t.finish with chars := rest }) : s.Turn := by
  refine .cut c after rest htop hchars hhash fun t halike ht => ?_
  rw [step_operator (operates (halike.top htop) hmarked hhash hless) (ht.trans hchars), h t halike]

theorem redirects_push (s : Scanner) (rest : List Char) (hc : c ≠ '>' ∧ c ≠ '<') :
    (s.take (s.sign c) rest).redirects = false := by
  simp [redirects, take, sign, hc.1, hc.2]

theorem turn_and (htop : s.top = true) (hsteady : s.steady = true) (hchars : s.chars = '&' :: rest) :
    s.Turn := by
  have hahead : s.ahead = '&' :: rest := ahead_of_ne hchars (by decide)
  have hmarked : ¬ Marked '&' := by simp [Marked]
  by_cases hnext : rest.head? = some '&'
  · exact .of_operator rest.tail htop hmarked (by decide) (by decide) hchars fun t _ => by
      simp [operator, hnext, finish]
  · by_cases hout : rest.head? = some '>'
    · cases rest with
      | nil => cases hout
      | cons x rest =>
        obtain rfl := Option.some.inj hout
        have hreads := reads_both htop
        refine .of_mark ['>'] hreads rfl hchars (by decide) ?_
          (trims_of_reads ['&'] hreads rfl (by decide))
        rintro ⟨-, hcuts⟩
        rw [hahead] at hcuts
        simp [cuts] at hcuts
    · cases hredirects : s.redirects with
      | false =>
        exact .of_operator rest htop hmarked (by decide) (by decide) hchars fun t halike => by
          have ht : ({ t with chars := rest } : Scanner).redirects = false :=
            halike.redirects.trans hredirects
          simp [operator, hnext, hout, ht, finish]
      | true =>
        have hreads := reads_duplicate htop hredirects
        refine .of_reads hreads hchars (List.cons_ne_nil _ _) (hahead.trans hchars.symm) ?_
          (fun x hx hc => hnext (hc ▸ hx)) (fun x hx => ?_) (trims_one hreads rfl)
        · rintro ⟨-, hcuts⟩
          rw [hahead, hredirects] at hcuts
          simp [cuts, hnext] at hcuts
        · by_cases hx' : x = '&'
          · refine .inr ⟨?_, ?_⟩
            · exact htop
            · rw [redirects_push s rest (by decide)]
              rw [ahead, if_pos (show (s.take (s.sign '&') rest).quote = .none from
                (top_iff.mp htop).1)] at hx ⊢
              have hglues : Glues rest '&' := ⟨hnext, hx' ▸ hx⟩
              rw [steady, hchars] at hsteady
              show cuts false (joined rest) = true
              simpa [htop, hredirects, hglues] using hsteady
          · exact .inl hx'

theorem turn_bar (htop : s.top = true) (hsteady : s.steady = true) (hchars : s.chars = '|' :: rest) :
    s.Turn := by
  by_cases hnext : rest.head? = some '|'
  · exact .of_operator rest.tail htop (by simp [Marked]) (by decide) (by decide) hchars
      fun t _ => by simp [operator, hnext, finish]
  · refine .bar rest htop hchars hnext ?_
    rw [steady, hchars] at hsteady
    simpa [htop, hnext] using hsteady

theorem turn_top (htop : s.top = true) (hsteady : s.steady = true) (hmarked : ¬ Marked c)
    (hchars : s.chars = c :: rest) : s.Turn := by
  by_cases hhash : c = '#'
  · exact turn_hash htop (hhash ▸ hchars)
  by_cases hless : c = '<'
  · exact turn_less htop hsteady (hless ▸ hchars)
  by_cases hline : c = '\n'
  · exact .line rest htop (hline ▸ hchars)
  by_cases hsemicolon : c = ';'
  · subst hsemicolon
    exact .of_operator rest htop hmarked hhash hless hchars fun t _ => by
      simp [operator, finish]
  by_cases hand : c = '&'
  · exact turn_and htop hsteady (hand ▸ hchars)
  by_cases hbar : c = '|'
  · exact turn_bar htop hsteady (hbar ▸ hchars)
  have hreads := reads_sign htop hmarked (by simp [hline, hsemicolon, hand, hbar, hless])
    fun hc => absurd hc hhash
  have hbackslash : c ≠ '\\' := fun hc => hmarked (hc ▸ by simp [Marked])
  exact .of_mark [] hreads rfl hchars hbackslash
    (not_cut_of_sign (ahead_cons hchars fun _ hc => absurd hc hbackslash)
      (by simp [hline, hsemicolon, hand, hbar])) (trims_one hreads rfl)

/-- **What a step does in a steady state.** -/
theorem turn (s : Scanner) (hsteady : s.steady = true) : s.Turn := by
  cases hchars : s.chars with
  | nil => exact .ended hchars
  | cons c rest =>
    cases hquote : s.quote with
    | single => exact turn_single hquote hchars
    | double => exact turn_double hquote hchars
    | none =>
      by_cases hbackslash : c = '\\'
      · exact turn_backslash hquote (hbackslash ▸ hchars)
      have hahead : s.ahead = c :: rest := ahead_cons hchars fun _ hc => absurd hc hbackslash
      by_cases hopen : c = '\'' ∨ c = '"'
      · have hreads := reads_open hquote hopen
        exact .of_mark [] hreads rfl hchars hbackslash
          (not_cut_of_sign hahead (by rcases hopen with rfl | rfl <;> decide)) (trims_one hreads rfl)
      by_cases hbacktick : c = '`'
      · subst hbacktick
        have hreads := reads_backtick hquote
        exact .of_mark [] hreads rfl hchars hbackslash
          (not_cut_of_sign hahead (by decide)) (trims_one hreads rfl)
      by_cases hdollar : c = '$'
      · exact turn_dollar hquote hsteady (hdollar ▸ hchars)
      have hmarked : ¬ Marked c := by simp_all [Marked]
      cases htop : s.top with
      | true => exact turn_top htop hsteady hmarked hchars
      | false =>
        refine turn_inside hquote ?_ hmarked hchars
        rw [← Bool.not_eq_true, top_iff] at htop
        by_cases hnested : s.nested = 0
        · exact .inr (by simpa [hquote, hnested] using htop)
        · exact .inl (Nat.pos_of_ne_zero hnested)

end

end Scanner

end Yunta.Shell
