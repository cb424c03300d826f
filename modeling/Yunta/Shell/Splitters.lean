/-
  The two splits of a script, one inside the other.

  1. **Leading whitespace** — a command read behind whitespace is the command read without it.

  2. **Two readings** — `Rel` relates the split into pipelines to the split into commands on one script:
     they stand at one place in one mode, and the pipeline kept so far, read again, leaves a scanner
     where the second split stands.

  3. **Main result** — `splitters_agree`: the commands of a script are the commands of its pipelines,
     where every state the split into pipelines passes is steady.
-/
import Yunta.Shell.Turns

set_option linter.unusedVariables false

namespace Yunta.Shell

open Text (isWhitespace)

/-! ## Trimming -/

/-- The command handed back for what was read of it: trimmed, and none for whitespace alone. -/
def commandOf (current : List Char) : List (List Char) :=
  if trimmed current = [] then [] else [trimmed current]

theorem trimmed_append_all {text back : List Char} (h : ∀ x ∈ back, isWhitespace x = true) :
    trimmed (text ++ back) = trimmed text := by
  rw [trimmed, trimmed, List.dropWhile_append]
  split
  · next hempty =>
    have hnil : text.dropWhile isWhitespace = [] := List.isEmpty_iff.mp hempty
    rw [hnil, List.dropWhile_eq_nil_iff.mpr h]
  · exact Text.rdropWhile_append_all h

theorem trimmed_all_append {text front : List Char} (h : ∀ x ∈ front, isWhitespace x = true) :
    trimmed (front ++ text) = trimmed text := by
  rw [trimmed, trimmed, List.dropWhile_append_of_pos h]

/-- Trimming at both ends is trimming at the end, and then in front. -/
theorem trimmed_eq (text : List Char) :
    trimmed text = (text.rdropWhile isWhitespace).dropWhile isWhitespace := by
  have hall : ∀ x ∈ text.takeWhile isWhitespace, isWhitespace x = true :=
    fun x hx => List.mem_takeWhile_imp hx
  have hsplit := List.takeWhile_append_dropWhile (p := isWhitespace) (l := text)
  have htrimmed := Text.dropWhile_rdropWhile isWhitespace text
  by_cases hnil : trimmed text = []
  · rw [hnil, ← hsplit, Text.rdropWhile_append_all (List.rdropWhile_eq_nil_iff.mp hnil),
      List.rdropWhile_eq_nil_iff.mpr hall]
    rfl
  · rw [← hsplit, Text.rdropWhile_append_of_ne_nil hnil, List.dropWhile_append_of_pos hall, htrimmed,
      hsplit]
    rfl

namespace Scanner

theorem finish_commands (s : Scanner) : s.finish.commands = s.commands ++ commandOf s.current := by
  show (if _ then _ else _) = _
  rw [commandOf]
  split <;> simp

/-! ## Leading whitespace -/

/-- The scanner with text before the command it reads. -/
def lead (s : Scanner) (front : List Char) : Scanner := { s with current := front ++ s.current }

section
variable {front : List Char} (hfront : ∀ x ∈ front, isWhitespace x = true) (s : Scanner)
include hfront

theorem getLast?_lead (p : Char → Bool) (hp : ∀ x, isWhitespace x = true → p x = true) :
    (s.lead front).current.getLast?.all p = s.current.getLast?.all p := by
  show (front ++ s.current).getLast?.all p = _
  cases hcurrent : s.current.getLast? with
  | some x => rw [List.getLast?_append, hcurrent]; rfl
  | none =>
    rw [List.getLast?_append, hcurrent, Option.none_or]
    cases hlast : front.getLast? with
    | none => rfl
    | some x => exact hp x (hfront x (List.mem_of_getLast? hlast))

theorem startsWord_lead : (s.lead front).startsWord = s.startsWord :=
  getLast?_lead hfront s isWhitespace fun _ h => h

theorem redirects_lead : (s.lead front).redirects = s.redirects := by
  have hnot : ∀ s : Scanner,
      s.redirects = !(s.current.getLast?.all fun x => x ≠ '>' && x ≠ '<') := fun s => by
    rw [redirects]
    cases s.current.getLast? <;> simp
  rw [hnot, hnot, getLast?_lead hfront]
  intro x hx
  have hne : x ≠ '>' ∧ x ≠ '<' := by
    constructor <;> rintro rfl <;> exact absurd hx (by decide)
  simp [hne.1, hne.2]

theorem finish_lead : (s.lead front).finish = s.finish := by
  rw [finish, finish, show trimmed (s.lead front).current = trimmed s.current from
    trimmed_all_append hfront]
  rfl

end

section
variable (s : Scanner) (front : List Char)

theorem push_lead (text : List Char) : (s.lead front).push text = (s.push text).lead front := by
  simp [push, lead]

theorem quoted_lead (c : Char) :
    (s.lead front).quoted c = (s.quoted c).map fun t => t.lead front := by
  unfold quoted
  rw [push_lead, show (s.lead front).quote = s.quote from rfl,
    show (s.lead front).chars = s.chars from rfl]
  split
  · rfl
  · split <;> rfl
  · split
    · rfl
    · split
      · split
        · rfl
        · rw [push_lead]
          rfl
      · rfl

theorem delimiter_lead : (s.lead front).delimiter = s.delimiter.lead front := by
  simp [delimiter_eq, lead]

theorem heredoc_lead : (s.lead front).heredoc = s.heredoc.lead front := by
  unfold heredoc
  rw [show (s.lead front).chars = s.chars from rfl]
  split
  · rw [push_lead]
    rfl
  · next rest _ =>
    rw [push_lead]
    exact delimiter_lead { s.push ['<', '<', '-'] with chars := rest } front
  · rw [push_lead]
    exact delimiter_lead { s.push ['<', '<'] with chars := s.chars.tail } front

end

/-- One scanner stands where the other does, with whitespace before the command it reads. -/
def Leads (s t : Scanner) : Prop :=
  ∃ front : List Char, (∀ x ∈ front, isWhitespace x = true) ∧ s = t.lead front

theorem Leads.refl (s : Scanner) : Leads s s := ⟨[], (fun x hx => by cases hx), rfl⟩

theorem Leads.ite {p : Prop} [Decidable p] {s s' t t' : Scanner} (h : Leads s t) (h' : Leads s' t') :
    Leads (if p then s else s') (if p then t else t') := by
  split
  · exact h
  · exact h'

section
variable {front : List Char} (hfront : ∀ x ∈ front, isWhitespace x = true) (s : Scanner) (c : Char)
include hfront

theorem operator_lead : Leads ((s.lead front).operator c) (s.operator c) := by
  have hpush : Leads ((s.lead front).push [c]) (s.push [c]) := ⟨front, hfront, push_lead s front [c]⟩
  unfold operator
  rw [finish_lead hfront, redirects_lead hfront, show (s.lead front).chars = s.chars from rfl,
    show (s.lead front).split = s.split from rfl]
  exact .ite (.refl _) <| .ite (.refl _) <| .ite (.refl _) <| .ite hpush <| .ite (.refl _) <|
    .ite (.refl _) <| .ite (.refl _) hpush

theorem unquoted_lead : Leads ((s.lead front).unquoted c) (s.unquoted c) := by
  unfold unquoted
  simp only [push_lead, heredoc_lead, startsWord_lead hfront]
  refine .ite ?_ <| .ite ⟨front, hfront, rfl⟩ <| .ite ⟨front, hfront, rfl⟩ <|
    .ite ⟨front, hfront, rfl⟩ <| .ite ⟨front, hfront, rfl⟩ <| .ite ⟨front, hfront, rfl⟩ <|
    .ite ⟨front, hfront, rfl⟩ <| .ite ⟨front, hfront, rfl⟩ <| .ite ⟨front, hfront, rfl⟩ <|
    operator_lead hfront s c
  rw [show (s.lead front).chars = s.chars from rfl]
  split
  · exact ⟨front, hfront, rfl⟩
  · exact .ite ⟨front, hfront, rfl⟩ ⟨front, hfront, rfl⟩

end

/-- A step keeps the whitespace before the command, or ends the command. -/
theorem step_leads {s t : Scanner} (h : Leads s t) :
    step s = none ∧ step t = none ∨
      ∃ s' t', step s = some s' ∧ step t = some t' ∧ Leads s' t' := by
  obtain ⟨front, hfront, rfl⟩ := h
  cases hchars : t.chars with
  | nil => exact .inl ⟨by rw [step, show (t.lead front).chars = [] from hchars], by rw [step, hchars]⟩
  | cons c rest =>
    refine .inr ⟨_, _, by rw [step, show (t.lead front).chars = c :: rest from hchars],
      by rw [step, hchars], ?_⟩
    have hquoted := quoted_lead { t with chars := rest } front c
    rw [show ({ t.lead front with chars := rest } : Scanner) =
      ({ t with chars := rest } : Scanner).lead front from rfl, hquoted]
    cases ({ t with chars := rest } : Scanner).quoted c with
    | none => exact unquoted_lead hfront _ c
    | some u => exact ⟨front, hfront, rfl⟩

/-- **Leading whitespace** changes no command. -/
theorem last_leads {s t : Scanner} (h : Leads s t) :
    (Scan.last step size s).finish.commands = (Scan.last step size t).finish.commands := by
  refine Scan.agree step_shrinks step_shrinks Leads (fun s => s.finish.commands)
    (fun s => s.finish.commands) (fun s t hrel => ?_) h
  rcases step_leads hrel with ⟨hs, ht⟩ | ⟨s', t', hs, ht, hnext⟩
  · obtain ⟨front, hfront, rfl⟩ := hrel
    exact .inl ⟨hs, ht, by rw [finish_lead hfront]⟩
  · exact .inr ⟨s', t', .one hs, .one ht, step_shrinks s s' hs, hnext⟩

/-- A scanner that reads whitespace ahead of everything else has read nothing. -/
theorem last_whitespace {front : List Char} (hfront : ∀ x ∈ front, isWhitespace x = true)
    (text : List Char) (split : Split) (before : List Char)
    (hbefore : ∀ x ∈ before, isWhitespace x = true) :
    (Scan.last step size ((new (front ++ text) split).lead before)).finish.commands =
      (Scan.last step size (new text split)).finish.commands := by
  induction front generalizing before with
  | nil => exact last_leads ⟨before, hbefore, rfl⟩
  | cons c front ih =>
    have hc := hfront c List.mem_cons_self
    have hrest := fun x hx => hfront x (List.mem_cons_of_mem c hx)
    have hmarked : ¬ Marked c := fun h => by
      simp only [Marked, List.mem_cons, List.not_mem_nil, or_false] at h
      rcases h with rfl | rfl | rfl | rfl | rfl <;> exact absurd hc (by decide)
    have hoperates : ((new (c :: front ++ text) split).lead before).Operates c (front ++ text) := by
      refine operates rfl hmarked ?_ ?_ <;> rintro rfl <;> exact absurd hc (by decide)
    have hstep := step_operator hoperates rfl
    rw [Scan.last_of_step step_shrinks hstep]
    by_cases hline : c = '\n'
    · subst hline
      rw [← ih hrest [] fun x hx => by cases hx]
      have hnone : trimmed before = [] := @trimmed_append_all [] before hbefore
      simp [operator, finish, skipHeredocBodies, lead, new, hnone]
    · rw [← ih hrest (before ++ [c]) fun x hx => by
        rcases List.mem_append.mp hx with hx | hx
        · exact hbefore x hx
        · rw [List.mem_singleton.mp hx, hc]]
      have hpush : ∀ s : Scanner, s.operator c = s.push [c] := fun s => by
        have hne : c ≠ ';' ∧ c ≠ '&' ∧ c ≠ '|' := by
          refine ⟨?_, ?_, ?_⟩ <;> rintro rfl <;> exact absurd hc (by decide)
        simp [operator, hline, hne.1, hne.2.1, hne.2.2]
      rw [hpush]
      simp [push, lead, new]

end Scanner

/-- The simple commands of a text. -/
def simple (text : List Char) : List (List Char) := Scanner.run text .commands

/-- **The command a piece of text hands back**, read again, gives what that text gives with only its
    end trimmed. -/
theorem flatMap_commandOf (text : List Char) :
    (commandOf text).flatMap simple = simple (text.rdropWhile isWhitespace) := by
  have hfront : ∀ x ∈ (text.rdropWhile isWhitespace).takeWhile isWhitespace, isWhitespace x = true :=
    fun x hx => List.mem_takeWhile_imp hx
  have hread : simple (trimmed text) = simple (text.rdropWhile isWhitespace) := by
    have h := Scanner.last_whitespace hfront (trimmed text) .commands []
      fun x hx => by cases hx
    rw [trimmed_eq, List.takeWhile_append_dropWhile, ← trimmed_eq] at h
    exact h.symm
  rw [commandOf]
  split
  · next hnil =>
    rw [← hread, hnil]
    rfl
  · rw [List.flatMap_singleton, hread]

/-! ## Two readings of one script -/

namespace Scanner

/-- A scanner into commands that reads `text` leaves what is behind it with the commands `cs` handed
    back, and stands in the mode of `c` with the command `c` has read. -/
def Leaves (c : Scanner) (text : List Char) (cs : List (List Char)) (free : Char → Prop) : Prop :=
  ∀ rest, Fits free rest → ∃ heredocs, Scan.Reaches step (new (text ++ rest) .commands)
    { c with chars := rest, commands := cs, heredocs := heredocs }

/-- The split into pipelines and the split into commands at one place of one script. -/
structure Rel (p c : Scanner) : Prop where
  pipelines : p.split = .pipelines
  commands : c.split = .commands
  chars : c.chars = p.chars
  quote : c.quote = p.quote
  nested : c.nested = p.nested
  backtick : c.backtick = p.backtick
  heredocs : c.heredocs = p.heredocs
  redirects : c.redirects = p.redirects
  word : p.ahead.head? = some '#' → c.startsWord = p.startsWord
  /-- The pipeline kept so far, read again, leaves the second split where it stands. -/
  reads : ∃ cs free, c.commands = p.commands.flatMap simple ++ cs ∧ c.Leaves p.current cs free ∧
    Fits (fun x => free x ∨ p.Cut) p.ahead ∧
    simple (p.current.rdropWhile isWhitespace) = cs ++ commandOf c.current

section
variable {p c p' c' : Scanner} {rest : List Char}

theorem Rel.alike (h : Rel p c) {x : Char} (hx : p.ahead.head? = some x) : Alike x p c :=
  ⟨h.quote, h.nested, h.backtick, h.redirects, fun heq => h.word (heq ▸ hx)⟩

theorem Rel.top (h : Rel p c) (htop : p.top = true) : c.top = true := by
  obtain ⟨hquote, hnested, hbacktick⟩ := top_iff.mp htop
  exact top_iff.mpr ⟨h.quote.trans hquote, h.nested.trans hnested, h.backtick.trans hbacktick⟩

/-- **Ending the command** in both splits hands back the same commands. -/
theorem Rel.finish_commands (h : Rel p c) :
    c.finish.commands = p.finish.commands.flatMap simple := by
  obtain ⟨cs, -, hcommands, -, -, hsimple⟩ := h.reads
  rw [Scanner.finish_commands, Scanner.finish_commands, List.flatMap_append, flatMap_commandOf, hsimple,
    hcommands, List.append_assoc]

/-- Where no command is being read, nothing is left to read again. -/
theorem Rel.fresh (hpipelines : p.split = .pipelines) (hcommands : c.split = .commands)
    (htop : p.top = true) (hctop : c.top = true) (hchars : c.chars = p.chars)
    (hheredocs : c.heredocs = p.heredocs) (hp : p.current = []) (hc : c.current = [])
    (hdone : c.commands = p.commands.flatMap simple) : Rel p c := by
  obtain ⟨hquote, hnested, hbacktick⟩ := top_iff.mp htop
  obtain ⟨hcquote, hcnested, hcbacktick⟩ := top_iff.mp hctop
  have hredirects : c.redirects = p.redirects := by
    rw [Scanner.redirects, Scanner.redirects, hp, hc]
  have hword : c.startsWord = p.startsWord := by rw [startsWord, startsWord, hp, hc]
  refine ⟨hpipelines, hcommands, hchars, hcquote.trans hquote.symm, hcnested.trans hnested.symm,
    hcbacktick.trans hbacktick.symm, hheredocs, hredirects, fun _ => hword, [], fun _ => True,
    hdone.trans (List.append_nil _).symm, fun rest _ => ⟨[], ?_⟩, fun _ _ => .inl trivial, ?_⟩
  · rw [hp, show new ([] ++ rest) .commands = { c with chars := rest, commands := [], heredocs := [] } by
      simp [new, hcommands, hc, hcquote, hcnested, hcbacktick]]
    exact .refl
  · rw [hp, hc]
    rfl

theorem Rel.finish (h : Rel p c) (htop : p.top = true) (rest : List Char) :
    Rel { p.finish with chars := rest } { c.finish with chars := rest } :=
  .fresh h.pipelines h.commands htop (h.top htop) rfl h.heredocs rfl rfl h.finish_commands

theorem Rel.line (h : Rel p c) (htop : p.top = true) (rest : List Char) :
    Rel ({ p.finish with chars := rest } : Scanner).skipHeredocBodies
      ({ c.finish with chars := rest } : Scanner).skipHeredocBodies := by
  refine .fresh h.pipelines h.commands htop (h.top htop) ?_ rfl rfl rfl h.finish_commands
  show c.heredocs.foldl _ rest = p.heredocs.foldl _ rest
  rw [h.heredocs]

/-- Both splits join two lines. -/
theorem Rel.join (h : Rel p c) (hahead : ({ p with chars := rest } : Scanner).ahead = p.ahead) :
    Rel { p with chars := rest } { c with chars := rest } := by
  obtain ⟨cs, free, hcommands, hleaves, hfree, hsimple⟩ := h.reads
  refine ⟨h.pipelines, h.commands, rfl, h.quote, h.nested, h.backtick, h.heredocs, h.redirects,
    fun hx => h.word (hahead ▸ hx), cs, free, hcommands, hleaves, ?_, hsimple⟩
  intro x hx
  rw [hahead] at hx
  refine (hfree x hx).imp_right fun ⟨htop, hcuts⟩ => ⟨htop, ?_⟩
  rw [hahead]
  exact hcuts

/-- Both splits pass over a comment. -/
theorem Rel.comment (h : Rel p c) (htop : p.top = true) (hword : c.startsWord = p.startsWord) :
    Rel { p with chars := rest.dropWhile fun next => next ≠ '\n' }
      { c with chars := rest.dropWhile fun next => next ≠ '\n' } := by
  obtain ⟨cs, free, hcommands, hleaves, -, hsimple⟩ := h.reads
  refine ⟨h.pipelines, h.commands, rfl, h.quote, h.nested, h.backtick, h.heredocs, h.redirects,
    fun _ => hword, cs, free, hcommands, hleaves, fun x hx => .inr ⟨htop, ?_⟩, hsimple⟩
  have hnot := List.head?_dropWhile_not (fun next : Char => next ≠ '\n') rest
  rw [ahead, if_pos (show ({ p with chars := _ } : Scanner).quote = .none from
    (top_iff.mp htop).1)] at hx ⊢
  cases hdrop : rest.dropWhile fun next => next ≠ '\n' with
  | nil =>
    rw [hdrop] at hx
    cases hx
  | cons y after =>
    rw [hdrop] at hnot
    have hy : y = '\n' := by simpa using hnot
    rw [hy]
    rfl

/-! ### Tokens -/

theorem getLast?_take (token : Token) (rest : List Char) (htext : token.text ≠ []) :
    (p.take token rest).current.getLast? = token.text.getLast? := by
  show (p.current ++ token.text).getLast? = _
  rw [List.getLast?_append_of_ne_nil _ htext]

/-- The text of a token read again. -/
theorem Leaves.token {token : Token} {cs : List (List Char)} {free before : Char → Prop}
    (h : c.Leaves p.current cs before) (halike : ∀ x, token.text.head? = some x → Alike x p c)
    (hbefore : ∀ x, token.text.head? = some x → before x) (htext : token.text ≠ [])
    (hreads : p.Reads token free) (rest : List Char) :
    (c.take token rest).Leaves (p.current ++ token.text) cs free := by
  intro k hk
  have hhead : (token.text ++ k).head? = token.text.head? := by
    cases htoken : token.text with
    | nil => exact absurd htoken htext
    | cons x text => rfl
  obtain ⟨heredocs, hreach⟩ := h (token.text ++ k) fun x hx => hbefore x (hhead ▸ hx)
  rw [← List.append_assoc] at hreach
  have htakes := hreads { c with chars := token.text ++ k, commands := cs, heredocs := heredocs }
    (fun x hx => ⟨(halike x hx).quote, (halike x hx).nested, (halike x hx).backtick,
      (halike x hx).redirects, (halike x hx).word⟩) k hk
  exact ⟨_, hreach.trans htakes⟩

/-- A text read to its end hands back what it left, and the command it has read. -/
theorem Leaves.simple {text : List Char} {cs : List (List Char)} {free : Char → Prop}
    (h : c.Leaves text cs free) : simple text = cs ++ commandOf c.current := by
  obtain ⟨heredocs, hreach⟩ := h [] nofun
  rw [List.append_nil] at hreach
  rw [Shell.simple, run, Scan.last_of_reaches step_shrinks hreach, Scan.last_of_none rfl,
    Scanner.finish_commands]

/-- **Both splits read a token.** -/
theorem Rel.token {token : Token} {free : Char → Prop} (h : Rel p c) (htext : token.text ≠ [])
    (hhead : p.ahead.head? = token.text.head?) (hstays : ¬ p.Cut) (hreads : p.Reads token free)
    (hfree : Fits (fun x => free x ∨ (p.take token rest).Cut) (p.take token rest).ahead)
    (htrims : p.Trims token) : Rel (p.take token rest) (c.take token rest) := by
  obtain ⟨cs, before, hcommands, hleaves, hbefore, hsimple⟩ := h.reads
  have halike : ∀ x, token.text.head? = some x → Alike x p c := fun x hx =>
    h.alike (hhead.trans hx)
  have hstarts : ∀ x, token.text.head? = some x → before x := fun x hx =>
    (hbefore x (hhead.trans hx)).resolve_right hstays
  have hlast : (c.take token rest).current.getLast? = (p.take token rest).current.getLast? := by
    rw [getLast?_take token rest htext, getLast?_take token rest htext]
  have hredirects : (c.take token rest).redirects = (p.take token rest).redirects := by
    rw [Scanner.redirects, Scanner.redirects, hlast]
  have hword : (c.take token rest).startsWord = (p.take token rest).startsWord := by
    rw [startsWord, startsWord, hlast]
  refine ⟨h.pipelines, h.commands, rfl, rfl, rfl, rfl, congrArg (· ++ token.heredocs) h.heredocs,
    hredirects, fun _ => hword, cs, free, hcommands, hleaves.token halike hstarts htext hreads rest,
    hfree, ?_⟩
  show Shell.simple ((p.current ++ token.text).rdropWhile isWhitespace) =
    cs ++ commandOf (c.current ++ token.text)
  rcases htrims with hwhite | ⟨left, hleft, hne, hlreads⟩
  · rw [Text.rdropWhile_append_all hwhite, hsimple, commandOf, commandOf, trimmed_append_all hwhite]
  · -- what is left of the token is read again where the pipeline ends
    have hsplit : token.text = left.text ++ token.text.rtakeWhile isWhitespace := by
      rw [hleft, List.rdropWhile_append_rtakeWhile]
    have hfirst : left.text.head? = token.text.head? := by
      rw [hsplit]
      cases hl : left.text with
      | nil => exact absurd hl hne
      | cons x text => rfl
    have hend := (hleaves.token (fun x hx => halike x (hfirst ▸ hx)) (fun x hx => hstarts x (hfirst ▸ hx))
      hne hlreads rest).simple
    have hwhite : ∀ x ∈ token.text.rtakeWhile isWhitespace, isWhitespace x = true :=
      fun x hx => List.mem_rtakeWhile_imp hx
    rw [Text.rdropWhile_append_of_ne_nil (hleft ▸ hne), ← hleft, hend, hsplit, ← List.append_assoc,
      commandOf, commandOf, trimmed_append_all hwhite]
    rfl

/-! ### A separating `|` -/

/-- The signs that keep a `|` in its pipeline are read again as the end of a command. -/
def Separates (text : List Char) (free : Char → Prop) : Prop :=
  ∀ s : Scanner, s.split = .commands → s.top = true → ∀ rest, Fits free rest →
    s.chars = text ++ rest → step s = some { s.finish with chars := rest }

theorem separates_bar : Separates ['|'] fun x => x ≠ '|' ∧ x ≠ '&' := by
  intro s hsplit htop rest hrest hchars
  have hbar : rest.head? ≠ some '|' := fun hhead => (hrest '|' hhead).1 rfl
  have hand : rest.head? ≠ some '&' := fun hhead => (hrest '&' hhead).2 rfl
  rw [step_operator (operates htop (by simp [Marked]) (by decide) (by decide)) hchars]
  simp [operator, hsplit, hbar, hand, Scanner.finish]

theorem separates_both : Separates ['|', '&'] fun _ => True := by
  intro s hsplit htop rest _ hchars
  rw [step_operator (operates htop (by simp [Marked]) (by decide) (by decide)) hchars]
  simp [operator, hsplit, Scanner.finish]

/-- **A separating `|`** stays in the pipeline, and ends a simple command. -/
theorem Rel.bar (text rest : List Char) {free : Char → Prop} {x : Char} (h : Rel p c) (htop : p.top = true)
    (hhead : p.ahead.head? = some '|') (hstays : ¬ p.Cut) (hfirst : text.head? = some '|')
    (hlast : text.getLast? = some x) (hx : x = '|' ∨ x = '&') (hseparates : Separates text free)
    (hword : ({ p.push text with chars := rest } : Scanner).ahead.head? ≠ some '#')
    (hfree : Fits (fun x => free x ∨ ({ p.push text with chars := rest } : Scanner).Cut)
      ({ p.push text with chars := rest } : Scanner).ahead) :
    Rel { p.push text with chars := rest } { c.finish with chars := rest } := by
  obtain ⟨cs, before, hcommands, hleaves, hbefore, -⟩ := h.reads
  have htext : text ≠ [] := by
    rintro rfl
    cases hfirst
  have hends : (p.current ++ text).getLast? = some x := by
    rw [List.getLast?_append_of_ne_nil _ htext, hlast]
  have hne : x ≠ '>' ∧ x ≠ '<' ∧ isWhitespace x = false := by
    rcases hx with rfl | rfl <;> decide
  have hredirects : ({ c.finish with chars := rest } : Scanner).redirects =
      ({ p.push text with chars := rest } : Scanner).redirects := by
    rw [Scanner.redirects, Scanner.redirects, show ({ p.push text with chars := rest } : Scanner).current =
      p.current ++ text from rfl, hends]
    simp [Scanner.finish, hne.1, hne.2.1]
  have hread : ({ c.finish with chars := rest } : Scanner).Leaves (p.current ++ text)
      (cs ++ commandOf c.current) free := by
    intro k hk
    have hstart : (text ++ k).head? = some '|' := by
      rw [List.head?_append, hfirst]
      rfl
    obtain ⟨heredocs, hreach⟩ := hleaves (text ++ k) fun y hy => by
      rw [hstart] at hy
      rw [← Option.some.inj hy]
      exact (hbefore '|' hhead).resolve_right hstays
    rw [← List.append_assoc] at hreach
    have hstep := hseparates { c with chars := text ++ k, commands := cs, heredocs := heredocs }
      h.commands (h.top htop) k hk rfl
    refine ⟨heredocs, hreach.trans (Scan.Reaches.one (hstep.trans (congrArg some ?_)))⟩
    exact Scanner.ext rfl rfl rfl (Scanner.finish_commands _) rfl rfl rfl rfl
  refine ⟨h.pipelines, h.commands, rfl, h.quote, h.nested, h.backtick, h.heredocs, hredirects,
    fun hhash => absurd hhash hword, cs ++ commandOf c.current, free, ?_, hread, hfree, ?_⟩
  · show c.finish.commands = p.commands.flatMap Shell.simple ++ _
    rw [Scanner.finish_commands, hcommands, List.append_assoc]
  · obtain ⟨front, hfront⟩ := List.getLast?_eq_some_iff.mp hends
    have hkept : (p.current ++ text).rdropWhile isWhitespace = p.current ++ text := by
      rw [hfront, List.rdropWhile_concat_neg _ _ _ (by simp [hne.2.2])]
    show Shell.simple ((p.current ++ text).rdropWhile isWhitespace) = _
    rw [hkept, hread.simple]

/-- A row of `&` that no `>` ends is the end of one command. -/
theorem reaches_row {s : Scanner} (htop : s.top = true) (hredirects : s.redirects = false)
    (hand : rest.head? ≠ some '&') (hout : rest.head? ≠ some '>') (n : Nat)
    (hchars : s.chars = List.replicate (n + 1) '&' ++ rest) :
    Scan.Reaches step s { s.finish with chars := rest } := by
  have hoperates : ∀ s : Scanner, s.top = true → ∀ rest, s.Operates '&' rest := fun s htop rest =>
    operates htop (by simp [Marked]) (by decide) (by decide)
  induction n using Nat.strongRecOn generalizing s with
  | _ n ih =>
    rcases n with _ | _ | n
    · refine .one ?_
      rw [step_operator (hoperates s htop rest) hchars]
      have hsame : ({ s with chars := rest } : Scanner).redirects = false := hredirects
      simp [operator, hand, hout, hsame, Scanner.finish]
    · refine .one ?_
      rw [step_operator (hoperates s htop _) hchars]
      simp [operator, Scanner.finish]
    · have hstep : step s = some { s.finish with chars := List.replicate (n + 1) '&' ++ rest } := by
        rw [step_operator (hoperates s htop _) hchars]
        simp [operator, Scanner.finish, List.replicate_succ]
      have hrest := ih n (by omega) (s := { s.finish with chars := List.replicate (n + 1) '&' ++ rest })
        htop rfl rfl
      refine (Scan.Reaches.one hstep).trans (hrest.trans ?_)
      rw [show ({ s.finish with chars := List.replicate (n + 1) '&' ++ rest } : Scanner).finish =
        { s.finish with chars := List.replicate (n + 1) '&' ++ rest } from rfl]

/-- What the two splits do next: both are through with the same commands, or both move on and stand
    at one place again. -/
def Moves (p c : Scanner) : Prop :=
  step p = none ∧ step c = none ∧ p.finish.commands.flatMap simple = c.finish.commands ∨
    ∃ p' c', Scan.Reaches step p p' ∧ Scan.Reaches step c c' ∧ p ≠ p' ∧ Rel p' c'

theorem ne_of_step (h : step p = some p') : p ≠ p' := fun hsame =>
  Nat.lt_irrefl _ (hsame ▸ step_shrinks p p' h)

/-- A `|` and the row of `&` behind it. -/
theorem moves_row (h : Rel p c) (htop : p.top = true) (n : Nat) (rest : List Char) (hand : rest.head? ≠ some '&')
    (hout : rest.head? ≠ some '>') (hchars : p.chars = '|' :: (List.replicate (n + 1) '&' ++ rest)) :
    Moves p c := by
  have hoperates : ∀ s : Scanner, s.top = true → ∀ rest, s.Operates '|' rest := fun s htop rest =>
    operates htop (by simp [Marked]) (by decide) (by decide)
  have hkept : step p = some { p.push ['|'] with chars := List.replicate (n + 1) '&' ++ rest } := by
    rw [step_operator (hoperates p htop _) hchars]
    simp [operator, h.pipelines, List.replicate_succ, push]
  have hended : step c = some { c.finish with chars := List.replicate n '&' ++ rest } := by
    rw [step_operator (hoperates c (h.top htop) _) (h.chars.trans hchars)]
    simp [operator, h.commands, List.replicate_succ, Scanner.finish]
  have hp := reaches_row (s := { p.push ['|'] with chars := List.replicate (n + 1) '&' ++ rest }) htop
    (by simp [Scanner.redirects, push]) hand hout n rfl
  have hc : Scan.Reaches step { c.finish with chars := List.replicate n '&' ++ rest }
      { c.finish with chars := rest } := by
    cases n with
    | zero => exact .refl
    | succ n =>
      exact reaches_row (s := { c.finish with chars := List.replicate (n + 1) '&' ++ rest })
        (h.top htop) rfl hand hout n rfl
  have hahead : p.ahead = p.chars := (ahead_of_ne hchars (by decide)).trans hchars.symm
  have hstays : ¬ p.Cut := by
    rintro ⟨-, hcuts⟩
    rw [hahead, hchars] at hcuts
    simp [cuts, List.replicate_succ] at hcuts
  have hdone := (h.bar ['|'] [] htop (by rw [hahead, hchars]; rfl) hstays rfl rfl
    (.inl rfl) separates_bar (by simp [ahead, joined]) (by simp [ahead, joined, Fits])).finish_commands
  exact .inr ⟨_, _, (Scan.Reaches.one hkept).trans hp, (Scan.Reaches.one hended).trans hc,
    fun hsame => absurd (congrArg (List.length ∘ chars) hsame) (by simp [hchars]; omega),
    .fresh h.pipelines h.commands htop (h.top htop) rfl h.heredocs rfl rfl hdone⟩

/-- A `|` that ends no pipeline. -/
theorem moves_bar (h : Rel p c) (htop : p.top = true) (hchars : p.chars = '|' :: rest)
    (hnext : rest.head? ≠ some '|') (hapart : Apart rest) : Moves p c := by
  obtain ⟨hhash, hglued, hrow⟩ := hapart
  have hquote := (top_iff.mp htop).1
  have hahead : p.ahead = p.chars := (ahead_of_ne hchars (by decide)).trans hchars.symm
  have hhead : p.ahead.head? = some '|' := by rw [hahead, hchars]; rfl
  have hstays : ¬ p.Cut := by
    rintro ⟨-, hcuts⟩
    rw [hahead, hchars] at hcuts
    simp [cuts, hnext] at hcuts
  have hkept : step p = some { p.push ['|'] with chars := rest } := by
    rw [step_operator (operates htop (by simp [Marked]) (by decide) (by decide)) hchars]
    simp [operator, h.pipelines, hnext, push]
  by_cases hand : rest.head? = some '&'
  · have hsplit := List.takeWhile_append_dropWhile (p := fun x : Char => x = '&') (l := rest)
    have hall := List.eq_replicate_of_mem fun x hx =>
      of_decide_eq_true (List.mem_takeWhile_imp (p := fun x : Char => x = '&') (l := rest) hx)
    have hnot := List.head?_dropWhile_not (fun x : Char => x = '&') rest
    generalize hafter : rest.dropWhile (fun x : Char => x = '&') = after at hsplit hnot hrow
    generalize (rest.takeWhile fun x : Char => x = '&').length = n at hall hrow
    rw [hall] at hsplit
    cases n with
    | zero =>
      rw [← hsplit] at hand
      simp_all
    | succ n =>
      by_cases hout : after.head? = some '>'
      · have hn : n = 0 := by
          have := hrow hout
          omega
        subst hn
        cases after with
        | nil => cases hout
        | cons x after =>
          obtain rfl := Option.some.inj hout
          rw [← hsplit] at hkept hchars
          have hsecond : step { p.push ['|'] with chars := '&' :: '>' :: after } =
              some { p.push ['|', '&'] with chars := '>' :: after } := by
            rw [step_operator (s := { p.push ['|'] with chars := '&' :: '>' :: after })
              (operates htop (by simp [Marked]) (by decide) (by decide)) rfl]
            simp [operator, push]
          have hended := separates_both c h.commands (h.top htop) ('>' :: after)
            (fun _ _ => trivial) (h.chars.trans hchars)
          have hnext' : ({ p.push ['|', '&'] with chars := '>' :: after } : Scanner).ahead =
              '>' :: after := ahead_of_ne rfl (by decide)
          refine .inr ⟨_, _, (Scan.Reaches.one hkept).trans (Scan.Reaches.one hsecond), .one hended,
            fun hsame => ?_, h.bar _ _ htop hhead hstays rfl rfl (.inr rfl) separates_both ?_
              fun _ _ => .inl trivial⟩
          · have hcurrent := congrArg current hsame
            exact List.cons_ne_nil _ _ (List.self_eq_append_right.mp hcurrent)
          · rw [hnext']
            simp
      · refine moves_row h htop n after (fun hc => ?_) hout (by rw [hsplit, hchars])
        simp_all
  · have hended := separates_bar c h.commands (h.top htop) rest
      (fun x hx => ⟨fun hc => hnext (hc ▸ hx), fun hc => hand (hc ▸ hx)⟩) (h.chars.trans hchars)
    have hquote' : ({ p.push ['|'] with chars := rest } : Scanner).ahead = joined rest :=
      if_pos hquote
    refine .inr ⟨_, _, .one hkept, .one hended, ne_of_step hkept,
      h.bar _ _ htop hhead hstays rfl rfl (.inl rfl) separates_bar ?_ ?_⟩
    · rw [hquote']
      exact hhash
    · intro x hx
      rw [hquote'] at hx
      by_cases hfree : x ≠ '|' ∧ x ≠ '&'
      · exact .inl hfree
      · refine .inr ⟨htop, ?_⟩
        have hcuts : cuts false (joined rest) = true := hglued (by
          by_cases hx' : x = '|'
          · exact .inr ⟨hnext, hx' ▸ hx⟩
          · exact .inl ⟨hand, by simp_all⟩)
        rw [hquote', show ({ p.push ['|'] with chars := rest } : Scanner).redirects = false by
          simp [Scanner.redirects, push]]
        exact hcuts

/-- **What the two splits do next.** -/
theorem moves (h : Rel p c) (hsteady : p.steady = true) : Moves p c := by
  cases turn p hsteady with
  | ended hchars =>
    have hp : step p = none := by rw [step, hchars]
    have hc : step c = none := by rw [step, h.chars, hchars]
    exact .inl ⟨hp, hc, h.finish_commands.symm⟩
  | join rest hquote hchars =>
    have hahead : ({ p with chars := rest } : Scanner).ahead = p.ahead := by
      calc ({ p with chars := rest } : Scanner).ahead = joined rest := if_pos hquote
        _ = joined p.chars := by rw [hchars, joined]
        _ = p.ahead := (if_pos hquote).symm
    exact .inr ⟨_, _, .one (step_join hquote hchars),
      .one (step_join (h.quote.trans hquote) (h.chars.trans hchars)),
      ne_of_step (step_join hquote hchars), h.join hahead⟩
  | comment rest htop hchars hword =>
    have hahead : p.ahead = '#' :: rest := ahead_of_ne hchars (by decide)
    have heq := h.word (by rw [hahead]; rfl)
    exact .inr ⟨_, _, .one (step_comment htop hword hchars),
      .one (step_comment (h.top htop) (heq.trans hword) (h.chars.trans hchars)),
      ne_of_step (step_comment htop hword hchars), h.comment htop heq⟩
  | line rest htop hchars =>
    have hstep := step_line htop hchars
    exact .inr ⟨_, _, .one hstep, .one (step_line (h.top htop) (h.chars.trans hchars)),
      ne_of_step hstep, h.line htop rest⟩
  | cut x after rest htop hchars hhash hcut =>
    have hstep := hcut p (.refl x p) rfl
    have halike : Alike x p c :=
      ⟨h.quote, h.nested, h.backtick, h.redirects, fun hx => absurd hx hhash⟩
    exact .inr ⟨_, _, .one hstep, .one (hcut c halike h.chars),
      ne_of_step hstep, h.finish htop rest⟩
  | bar rest htop hchars hnext hapart => exact moves_bar h htop hchars hnext hapart
  | token token free rest htext hhead hstays hreach hreads hfree htrims =>
    have hp := hreach p (fun x _ => .refl x p) rfl
    have hc := hreach c (fun x hx => h.alike (hhead.trans hx)) h.chars
    refine .inr ⟨_, _, hp, hc, fun hsame => ?_, h.token htext hhead hstays hreads hfree htrims⟩
    have hcurrent := congrArg current hsame
    exact htext (List.self_eq_append_right.mp hcurrent)

end

/-- **Both splits of a script** give the same commands, where the split into pipelines passes steady
    states alone. -/
theorem run_simple (script : List Char)
    (hsteady : Scan.Always step (fun s => s.steady = true) (new script .pipelines)) :
    simple script = (run script .pipelines).flatMap simple := by
  refine (Scan.agree step_shrinks step_shrinks
    (fun p c => Rel p c ∧ Scan.Always step (fun s => s.steady = true) p)
    (fun p => p.finish.commands.flatMap simple) (fun c => c.finish.commands) ?_ ⟨?_, hsteady⟩).symm
  · rintro p c ⟨hrel, halways⟩
    rcases moves hrel halways.here with hdone | ⟨p', c', hp, hc, hne, hnext⟩
    · exact .inl hdone
    · exact .inr ⟨p', c', hp, hc, Scan.size_lt_of_reaches step_shrinks hp hne, hnext,
        halways.reaches hp⟩
  · exact .fresh rfl rfl rfl rfl rfl rfl rfl rfl rfl

end Scanner

/-- The split into pipelines reads no sign of the script that reading a pipeline again reads
    otherwise. -/
def Steady (script : String) : Prop :=
  Scan.Always Scanner.step (fun s => s.steady = true) (.new script.toList .pipelines)

/-- **The two splitters read a script alike**, where every sign the first reads is one the second reads
    so. -/
theorem splitters_agree (script : String) (h : Steady script) :
    simpleCommands script = (pipelines script).flatMap simpleCommands := by
  have hcommands : ∀ text, simpleCommands (.ofList text) = (simple text).map String.ofList :=
    fun text => by rw [simpleCommands, String.toList_ofList, simple]
  rw [← String.ofList_toList (s := script), hcommands, Scanner.run_simple script.toList h,
    List.map_flatMap, pipelines, String.ofList_toList, List.flatMap_map]
  simp only [hcommands]

/-- A script with a pipe of both streams, quotes, a comment, a substitution, a joined line and a
    heredoc. -/
def releaseScript : String :=
  "cat a |& tee 'b; c' # it\nv=$(git log | wc -l) \\\n && cat <<EOF | sh\nx; y\nEOF\nmake"

theorem splitters_agree_release :
    simpleCommands releaseScript = (pipelines releaseScript).flatMap simpleCommands :=
  splitters_agree releaseScript (Scan.always_of_checked (n := 99) (by decide +kernel))

/-- **A `#` right behind a `|`** is a comment to one splitter, and part of the pipeline to the other. -/
theorem not_splitters_agree :
    simpleCommands "a |#b; c" = ["a"] ∧ (pipelines "a |#b; c").flatMap simpleCommands = ["a", "c"] ∧
      ¬ ∀ script, simpleCommands script = (pipelines script).flatMap simpleCommands := by
  have hcommands : simpleCommands "a |#b; c" = ["a"] := by decide +kernel
  have hpipelines : (pipelines "a |#b; c").flatMap simpleCommands = ["a", "c"] := by decide +kernel
  refine ⟨hcommands, hpipelines, fun h => ?_⟩
  have hsame := h "a |#b; c"
  rw [hcommands, hpipelines] at hsame
  cases hsame

end Yunta.Shell
