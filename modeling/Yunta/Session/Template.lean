/-
  Templates: text in which `{{name}}` stands for a variable.

  1. **The variables** — a closed set, one spelling each; `fromStr` reads a spelling back.

  2. **The reader** — `parseFrom` cuts a template at each `{{` and the `}}` after it.

  3. **The renderer** — `renderTemplate` puts a value in the place of each variable, and refuses a
     template that names one without a value; `templateVariables` lists the names alone.

  4. **Main results** — `template_read`: a template reads as some pieces exactly where it spells them,
     and pieces written out are read back.  `template_refused`: it is refused exactly at its first
     place that never closes or names no variable.  `template_rendered`: it renders exactly where its
     listed variables have values, to those values between its texts.

  Single braces are text.  What a variable's value holds is never read as a template again: the output
  is put together from the pieces of the input alone.
-/
import Mathlib.Data.List.Infix
import Yunta.Lib.Str
import Yunta.Workflow.Audit

set_option linter.unusedVariables false

namespace Yunta.Template

abbrev Chars := List Char

/-! ## Variables -/

structure InputName where
  name : Chars
  named : WorkflowAudit.isName name = true
  deriving DecidableEq

/-- Every variable a `{{…}}` may name. -/
inductive TemplateVar where
  | runDir | worktree | runBranch | runBase | staging
  | nodeArtifacts | nodeId
  | runnerName
  | projectName | projectBaseBranch | projectBranchPrefix
  | input (name : InputName)
  deriving DecidableEq

namespace TemplateVar

/-- Every variable that names no payload. -/
def fixed : List TemplateVar :=
  [runDir, worktree, runBranch, runBase, staging, nodeArtifacts, nodeId, runnerName, projectName,
    projectBaseBranch, projectBranchPrefix]

/-- What an input's variable is spelled under. -/
def inputs : Chars := "inputs.".toList

/-- The one spelling of a variable. -/
def spelling : TemplateVar → Chars
  | runDir => "run.dir".toList
  | worktree => "run.worktree".toList
  | runBranch => "run.branch".toList
  | runBase => "run.base".toList
  | staging => "run.staging".toList
  | nodeArtifacts => "node.artifacts".toList
  | nodeId => "node.id".toList
  | runnerName => "runner.name".toList
  | projectName => "project.name".toList
  | projectBaseBranch => "project.base_branch".toList
  | projectBranchPrefix => "project.branch_prefix".toList
  | input name => inputs ++ name.name

end TemplateVar

def opening : Chars := ['{', '{']
def closing : Chars := ['}', '}']

/-- The variable as a template writes it, braces and all. -/
def TemplateVar.braced (var : TemplateVar) : Chars := opening ++ (var.spelling ++ closing)

/-- A `{{…}}` naming something that is not a variable. -/
structure UnknownVariable where
  name : Chars
  known : String
  deriving DecidableEq

def UnknownVariable.of (name : Chars) : UnknownVariable where
  name := name
  known := ", ".intercalate
    (TemplateVar.fixed.map fun var => "`" ++ String.ofList var.spelling ++ "`")

/-- Reads a variable's spelling. -/
def TemplateVar.fromStr (text : Chars) : Except UnknownVariable TemplateVar :=
  if inputs.isPrefixOf text then
    if h : WorkflowAudit.isName (text.drop inputs.length) = true then
      .ok (.input ⟨text.drop inputs.length, h⟩)
    else .error (.of text)
  else
    match fixed.find? fun var => var.spelling == text with
    | some var => .ok var
    | none => .error (.of text)

/-! ## The reader -/

inductive TemplateError where
  | undefined (name : TemplateVar)
  | unclosed (byte : Nat)
  | unknown (name : UnknownVariable)
  deriving DecidableEq

inductive Piece where
  | text (text : Chars)
  | var (name : TemplateVar)
  deriving DecidableEq

/-- The bytes a text takes. -/
def width : Chars → Nat
  | [] => 0
  | c :: text => c.utf8Size + width text

/-- A stretch of text, where there is one. -/
def textOf (text : Chars) : List Piece := if text = [] then [] else [.text text]

def trimmed (name : Chars) : Chars := (Text.trim (.ofList name)).toList

theorem opening_ne : opening ≠ [] := List.cons_ne_nil _ _

theorem closing_ne : closing ≠ [] := List.cons_ne_nil _ _

theorem rest_shorter {rest before after name rest' : Chars}
    (hopen : Str.splitOnce opening rest = some (before, after))
    (hclose : Str.splitOnce closing after = some (name, rest')) : rest'.length < rest.length := by
  have hafter := (Str.found_of_splitOnce hopen).shorter opening_ne
  have hrest := (Str.found_of_splitOnce hclose).shorter closing_ne
  omega

/-- Reads what is left of a template, `offset` bytes in. -/
def parseFrom (offset : Nat) (rest : Chars) : Except TemplateError (List Piece) :=
  match hopen : Str.splitOnce opening rest with
  | none => .ok (textOf rest)
  | some (before, after) =>
    match hclose : Str.splitOnce closing after with
    | none => .error (.unclosed (offset + width before))
    | some (name, rest') => do
      let var ← (TemplateVar.fromStr (trimmed name)).mapError .unknown
      let pieces ← parseFrom (offset + width before + 2 + width name + 2) rest'
      return textOf before ++ .var var :: pieces
termination_by rest.length
decreasing_by exact rest_shorter hopen hclose

def parse (input : Chars) : Except TemplateError (List Piece) := parseFrom 0 input

/-! ## The renderer -/

section
variable (vars : TemplateVar → Option Chars)

def renderPieces : List Piece → Except TemplateError Chars
  | [] => .ok []
  | .text text :: pieces => (renderPieces pieces).map (text ++ ·)
  | .var name :: pieces =>
    match vars name with
    | some value => (renderPieces pieces).map (value ++ ·)
    | none => .error (.undefined name)

/-- Replaces every `{{name}}` with its value. -/
def renderTemplate (input : Chars) : Except TemplateError Chars :=
  match parse input with
  | .error error => .error error
  | .ok pieces => renderPieces vars pieces

end

def Piece.name? : Piece → Option TemplateVar
  | .text _ => none
  | .var name => some name

/-- Every variable named, in order of appearance. -/
def templateVariables (input : Chars) : Except TemplateError (List TemplateVar) :=
  (parse input).map fun pieces => pieces.filterMap Piece.name?

/-! ## What a template spells -/

/-- What a template spells: text, and in it each variable between its braces, padded or not.  A `{{`
    is where one first stands, and so is the `}}` after it. -/
inductive Spells : Chars → List Piece → Prop
  | text {last : Chars} (hlast : ¬opening <:+: last) : Spells last (textOf last)
  | var {before name rest : Chars} {var : TemplateVar} {pieces : List Piece}
      (hbefore : ¬opening <:+: before ++ ['{']) (hname : ¬closing <:+: name ++ ['}'])
      (hspelled : trimmed name = var.spelling) (hrest : Spells rest pieces) :
      Spells (before ++ (opening ++ (name ++ (closing ++ rest))))
        (textOf before ++ .var var :: pieces)

def Piece.write : Piece → Chars
  | .text stretch => stretch
  | .var name => name.braced

/-- Pieces written out, each variable in its one spelling. -/
def write (pieces : List Piece) : Chars := pieces.flatMap Piece.write

/-- Where a template is refused: behind a whole template, a `{{` never closed, or a `{{…}}` that names
    no variable. -/
inductive Refused : Chars → TemplateError → Prop
  | unclosed {whole rest : Chars} {pieces : List Piece} (hwhole : Spells whole pieces)
      (hend : whole.getLast? ≠ some '{') (hrest : ¬closing <:+: rest) :
      Refused (whole ++ (opening ++ rest)) (.unclosed (width whole))
  | unknown {whole name rest : Chars} {pieces : List Piece} (hwhole : Spells whole pieces)
      (hend : whole.getLast? ≠ some '{') (hname : ¬closing <:+: name ++ ['}'])
      (hnone : ∀ var : TemplateVar, trimmed name ≠ var.spelling) :
      Refused (whole ++ (opening ++ (name ++ (closing ++ rest)))) (.unknown (.of (trimmed name)))

/-! ## Spellings -/

/-- A character of no brace and no space. -/
def plain (c : Char) : Bool := !Text.isWhitespace c && c != '{' && c != '}'

/-- A letter or a digit is no brace and no space. -/
theorem plain_of_alphanum {c : Char} (h : c.isAlphanum = true) : plain c = true := by
  have hrange : 48 ≤ c.toNat ∧ c.toNat ≤ 57 ∨ 65 ≤ c.toNat ∧ c.toNat ≤ 90 ∨
      97 ≤ c.toNat ∧ c.toNat ≤ 122 := by
    change (decide (65 ≤ c.val ∧ c.val ≤ 90) ||
      (decide (97 ≤ c.val) && decide (c.val ≤ 122)) ||
      (decide (48 ≤ c.val) && decide (c.val ≤ 57))) = true at h
    simp only [Bool.or_eq_true, Bool.and_eq_true, decide_eq_true_eq, UInt32.le_iff_toNat_le] at h
    change ((_ ≤ c.toNat ∧ c.toNat ≤ _) ∨ (_ ≤ c.toNat ∧ c.toNat ≤ _)) ∨
      (_ ≤ c.toNat ∧ c.toNat ≤ _) at h
    simp at h
    omega
  have hspace : Text.isWhitespace c = false := by
    simp [Text.isWhitespace]
    omega
  rw [plain, hspace, Bool.and_eq_true, Bool.and_eq_true, bne_iff_ne, bne_iff_ne]
  refine ⟨⟨rfl, ?_⟩, ?_⟩
  · rintro rfl
    simp at hrange
  · rintro rfl
    simp at hrange

theorem plain_of_isName {name : Chars} (h : WorkflowAudit.isName name = true) :
    ∀ c ∈ name, plain c = true := by
  cases name with
  | nil => intro c hc; cases hc
  | cons first rest =>
    rw [WorkflowAudit.isName, Bool.and_eq_true, List.all_eq_true] at h
    intro c hc
    rcases List.mem_cons.mp hc with rfl | hc
    · exact plain_of_alphanum (by rw [Char.isAlphanum, h.1]; rfl)
    · have hrest := h.2 c hc
      rw [Bool.or_eq_true, Bool.or_eq_true, beq_iff_eq, beq_iff_eq] at hrest
      rcases hrest with (hc | rfl) | rfl
      · exact plain_of_alphanum hc
      · decide
      · decide

theorem plain_spelling (var : TemplateVar) : ∀ c ∈ var.spelling, plain c = true := by
  cases var with
  | input name =>
    intro c hc
    rcases List.mem_append.mp hc with hc | hc
    · exact List.all_eq_true.mp (by decide : TemplateVar.inputs.all plain = true) c hc
    · exact plain_of_isName name.named c hc
  | _ => exact List.all_eq_true.mp (by decide)

theorem fromStr_spelling (var : TemplateVar) : TemplateVar.fromStr var.spelling = .ok var := by
  cases var with
  | input name =>
    have hprefix : TemplateVar.inputs.isPrefixOf (TemplateVar.inputs ++ name.name) = true :=
      List.isPrefixOf_iff_prefix.mpr (List.prefix_append ..)
    have hdrop : (TemplateVar.inputs ++ name.name).drop TemplateVar.inputs.length = name.name :=
      List.drop_left
    show TemplateVar.fromStr (TemplateVar.inputs ++ name.name) = _
    rw [TemplateVar.fromStr, if_pos hprefix, dif_pos (by rw [hdrop]; exact name.named)]
    congr 3
  | _ => rfl

/-- A text reads as a variable exactly where it is that variable's spelling. -/
theorem fromStr_ok {text : Chars} {var : TemplateVar} :
    TemplateVar.fromStr text = .ok var ↔ text = var.spelling := by
  refine ⟨fun h => ?_, fun h => by rw [h, fromStr_spelling]⟩
  rw [TemplateVar.fromStr] at h
  split at h
  · next hprefix =>
    split at h
    · obtain rfl := Except.ok.inj h
      obtain ⟨name, hname⟩ := List.isPrefixOf_iff_prefix.mp hprefix
      show text = TemplateVar.inputs ++ text.drop TemplateVar.inputs.length
      rw [← hname, List.drop_left]
    · cases h
  · split at h
    · next found hfound =>
      obtain rfl := Except.ok.inj h
      have heq := List.find?_some hfound
      exact (beq_iff_eq.mp heq).symm
    · cases h

/-- A text that is no variable's spelling is refused by its name. -/
theorem fromStr_error {text : Chars} {unknown : UnknownVariable} :
    TemplateVar.fromStr text = .error unknown ↔
      unknown = .of text ∧ ∀ var : TemplateVar, text ≠ var.spelling := by
  constructor
  · intro h
    refine ⟨?_, fun var hvar => ?_⟩
    · rw [TemplateVar.fromStr] at h
      split at h
      · split at h
        · cases h
        · exact (Except.error.inj h).symm
      · split at h
        · cases h
        · exact (Except.error.inj h).symm
    · rw [fromStr_ok.mpr hvar] at h
      cases h
  · rintro ⟨rfl, hnone⟩
    cases hread : TemplateVar.fromStr text with
    | ok var => exact absurd (fromStr_ok.mp hread) (hnone var)
    | error other =>
      rw [TemplateVar.fromStr] at hread
      split at hread
      · split at hread
        · cases hread
        · rw [← Except.error.inj hread]
      · split at hread
        · cases hread
        · rw [← Except.error.inj hread]

/-! ## One step of the reader -/

theorem parseFrom_last {offset : Nat} {rest : Chars} (h : ¬opening <:+: rest) :
    parseFrom offset rest = .ok (textOf rest) := by
  have hnone : Str.splitOnce opening rest = none :=
    Option.map_eq_none_iff.mpr (Replace.find_eq_none.mpr h)
  rw [parseFrom]
  split
  · rfl
  · next hsome => rw [hnone] at hsome; cases hsome

theorem parseFrom_unclosed {offset : Nat} {before rest : Chars} (hbefore : ¬opening <:+: before ++ ['{'])
    (hrest : ¬closing <:+: rest) :
    parseFrom offset (before ++ (opening ++ rest)) = .error (.unclosed (offset + width before)) := by
  have hopen : Str.splitOnce opening (before ++ (opening ++ rest)) = some (before, rest) :=
    Str.splitOnce_of_found (Replace.found_twice.mpr hbefore)
  have hnone : Str.splitOnce closing rest = none :=
    Option.map_eq_none_iff.mpr (Replace.find_eq_none.mpr hrest)
  rw [parseFrom]
  split
  · next h => rw [hopen] at h; cases h
  · next before' after h =>
    rw [hopen] at h
    obtain ⟨rfl, rfl⟩ := Prod.mk.inj (Option.some.inj h)
    split
    · rfl
    · next h => rw [hnone] at h; cases h

theorem parseFrom_var {offset : Nat} {before name rest : Chars} (hbefore : ¬opening <:+: before ++ ['{'])
    (hname : ¬closing <:+: name ++ ['}']) :
    parseFrom offset (before ++ (opening ++ (name ++ (closing ++ rest)))) = (do
      let var ← (TemplateVar.fromStr (trimmed name)).mapError .unknown
      let pieces ← parseFrom (offset + width before + 2 + width name + 2) rest
      return textOf before ++ .var var :: pieces) := by
  have hopen : Str.splitOnce opening (before ++ (opening ++ (name ++ (closing ++ rest)))) =
      some (before, name ++ (closing ++ rest)) :=
    Str.splitOnce_of_found (Replace.found_twice.mpr hbefore)
  have hclose : Str.splitOnce closing (name ++ (closing ++ rest)) = some (name, rest) :=
    Str.splitOnce_of_found (Replace.found_twice.mpr hname)
  rw [parseFrom]
  split
  · next h => rw [hopen] at h; cases h
  · next before' after h =>
    rw [hopen] at h
    obtain ⟨rfl, rfl⟩ := Prod.mk.inj (Option.some.inj h)
    split
    · next h => rw [hclose] at h; cases h
    · next name' rest' h =>
      rw [hclose] at h
      obtain ⟨rfl, rfl⟩ := Prod.mk.inj (Option.some.inj h)
      rfl

/-- A template holds no `{{`, or a first one that never closes, or one up to its `}}`. -/
inductive Cut : Chars → Prop
  | last {rest : Chars} (h : ¬opening <:+: rest) : Cut rest
  | unclosed {before rest : Chars} (hbefore : ¬opening <:+: before ++ ['{']) (hrest : ¬closing <:+: rest) :
      Cut (before ++ (opening ++ rest))
  | var {before name rest : Chars} (hbefore : ¬opening <:+: before ++ ['{'])
      (hname : ¬closing <:+: name ++ ['}']) : Cut (before ++ (opening ++ (name ++ (closing ++ rest))))

theorem cut (input : Chars) : Cut input := by
  by_cases hopen : opening <:+: input
  · obtain ⟨before, after, hfound⟩ := Replace.exists_found hopen
    obtain rfl := hfound.cut
    have hbefore := Replace.found_twice.mp hfound
    by_cases hclose : closing <:+: after
    · obtain ⟨name, rest, hfound⟩ := Replace.exists_found hclose
      obtain rfl := hfound.cut
      exact .var hbefore (Replace.found_twice.mp hfound)
    · exact .unclosed hbefore hclose
  · exact .last hopen

/-! ## What is read -/

theorem spells_of_parse {offset : Nat} {input : Chars} {pieces : List Piece}
    (h : parseFrom offset input = .ok pieces) : Spells input pieces := by
  induction hlength : input.length using Nat.strong_induction_on generalizing input offset pieces with
  | _ length ih =>
    cases cut input with
    | last hlast =>
      rw [parseFrom_last hlast] at h
      rw [← Except.ok.inj h]
      exact .text hlast
    | unclosed hbefore hrest => rw [parseFrom_unclosed hbefore hrest] at h; cases h
    | @var before name rest hbefore hname =>
      rw [parseFrom_var hbefore hname] at h
      cases hread : TemplateVar.fromStr (trimmed name) with
      | error unknown => rw [hread] at h; cases h
      | ok var =>
        rw [hread] at h
        cases hrest : parseFrom (offset + width before + 2 + width name + 2) rest with
        | error error =>
          change (parseFrom _ rest >>= _) = _ at h
          rw [hrest] at h
          cases h
        | ok after =>
          change (parseFrom _ rest >>= _) = _ at h
          rw [hrest] at h
          rw [← Except.ok.inj h]
          refine .var hbefore hname (fromStr_ok.mp hread) (ih rest.length ?_ hrest rfl)
          rw [← hlength]
          simp only [List.length_append, opening, closing, List.length_cons, List.length_nil]
          omega

theorem parse_of_spells {offset : Nat} {input : Chars} {pieces : List Piece} (h : Spells input pieces) :
    parseFrom offset input = .ok pieces := by
  induction h generalizing offset with
  | text hlast => exact parseFrom_last hlast
  | var hbefore hname hspelled hrest ih =>
    rw [parseFrom_var hbefore hname, fromStr_ok.mpr hspelled]
    change (parseFrom _ _ >>= _) = _
    rw [ih]
    rfl

/-! ## What is written -/

theorem trimmed_spelling (var : TemplateVar) : trimmed var.spelling = var.spelling := by
  refine Str.trim_of_none fun c hc => ?_
  have hplain := plain_spelling var c hc
  rw [plain, Bool.and_eq_true, Bool.and_eq_true, Bool.not_eq_true'] at hplain
  exact hplain.1.1

/-- A stretch followed by a brace holds two in a row where the stretch does, or ends with one. -/
theorem not_infix_concat {c : Char} {text : Chars} :
    ¬[c, c] <:+: text ++ [c] ↔ ¬[c, c] <:+: text ∧ text.getLast? ≠ some c := by
  have hsuffix : [c, c] <:+ text ++ [c] ↔ text.getLast? = some c := by
    rw [List.getLast?_eq_some_iff]
    constructor
    · rintro ⟨front, heq⟩
      refine ⟨front, ?_⟩
      have hcut : (front ++ [c]) ++ [c] = text ++ [c] := by rw [← heq, List.append_assoc]; rfl
      exact (List.append_cancel_right hcut).symm
    · rintro ⟨front, rfl⟩
      exact ⟨front, by rw [List.append_assoc]; rfl⟩
  rw [List.infix_concat_iff, hsuffix, not_or, and_comm]

theorem spelling_closes (var : TemplateVar) : ¬closing <:+: var.spelling ++ ['}'] := by
  have hbrace : '}' ∉ var.spelling := fun hmem => absurd (plain_spelling var _ hmem) (by decide)
  refine not_infix_concat.mpr ⟨fun hwithin => ?_, fun hlast => hbrace (List.mem_of_getLast? hlast)⟩
  exact hbrace (hwithin.subset List.mem_cons_self)

/-- What a template spells, written out, spells the same. -/
theorem spells_write {input : Chars} {pieces : List Piece} (h : Spells input pieces) :
    Spells (write pieces) pieces := by
  have htext : ∀ text : Chars, write (textOf text) = text := by
    intro text
    rw [textOf]
    split
    · next hnil => rw [hnil]; rfl
    · exact List.append_nil _
  induction h with
  | @text last hlast =>
    rw [htext]
    exact .text hlast
  | @var before name rest var pieces hbefore hname hspelled hrest ih =>
    have hwrite : write (textOf before ++ .var var :: pieces) =
        before ++ (opening ++ (var.spelling ++ (closing ++ write pieces))) := by
      rw [write, List.flatMap_append, List.flatMap_cons]
      show write (textOf before) ++ (var.braced ++ write pieces) = _
      rw [htext, TemplateVar.braced, List.append_assoc, List.append_assoc]
    rw [hwrite]
    exact .var hbefore (spelling_closes var) (trimmed_spelling var) ih

/-- **What a template reads as**: exactly the pieces it spells; and those, each variable written in its
    one spelling, read as themselves. -/
theorem template_read (input : Chars) (pieces : List Piece) :
    (parse input = .ok pieces ↔ Spells input pieces) ∧
      (Spells input pieces → parse (write pieces) = .ok pieces) :=
  ⟨⟨spells_of_parse, parse_of_spells⟩, fun h => parse_of_spells (spells_write h)⟩

/-! ## What is refused -/

theorem width_append (a b : Chars) : width (a ++ b) = width a + width b := by
  induction a with
  | nil => exact (Nat.zero_add _).symm
  | cons c a ih =>
    show c.utf8Size + width (a ++ b) = c.utf8Size + width a + width b
    omega

/-- The bytes up to the end of a first variable, and behind it. -/
theorem width_var (before name rest : Chars) :
    width (before ++ (opening ++ (name ++ (closing ++ rest)))) =
      width before + 2 + width name + 2 + width rest := by
  have hopening : width opening = 2 := by decide
  have hclosing : width closing = 2 := by decide
  rw [width_append, width_append, width_append, width_append, hopening, hclosing]
  omega

/-- An error found so many bytes in. -/
def TemplateError.later (offset : Nat) : TemplateError → TemplateError
  | .unclosed byte => .unclosed (offset + byte)
  | error => error

/-- Behind a closed `}}` a text ends as what follows it does. -/
theorem getLast?_closed (front rest : Chars) :
    (front ++ (closing ++ rest)).getLast? ≠ some '{' ↔ rest.getLast? ≠ some '{' := by
  cases rest with
  | nil =>
    rw [List.append_nil, List.getLast?_append]
    simp [closing]
  | cons c rest => rw [← List.append_assoc, List.getLast?_append_cons]

theorem refused_of_parse {offset : Nat} {input : Chars} {error : TemplateError}
    (h : parseFrom offset input = .error error) :
    ∃ found, Refused input found ∧ error = found.later offset := by
  induction hlength : input.length using Nat.strong_induction_on generalizing input offset with
  | _ length ih =>
    cases cut input with
    | last hlast => rw [parseFrom_last hlast] at h; cases h
    | unclosed hbefore hrest =>
      rw [parseFrom_unclosed hbefore hrest] at h
      obtain ⟨hwhole, hend⟩ := not_infix_concat.mp hbefore
      exact ⟨_, .unclosed (.text hwhole) hend hrest, (Except.error.inj h).symm⟩
    | @var before name rest hbefore hname =>
      rw [parseFrom_var hbefore hname] at h
      cases hread : TemplateVar.fromStr (trimmed name) with
      | error unknown =>
        rw [hread] at h
        obtain ⟨rfl, hnone⟩ := fromStr_error.mp hread
        obtain ⟨hwhole, hend⟩ := not_infix_concat.mp hbefore
        exact ⟨_, .unknown (.text hwhole) hend hname hnone, (Except.error.inj h).symm⟩
      | ok var =>
        rw [hread] at h
        change (parseFrom _ rest >>= _) = _ at h
        cases hrest : parseFrom (offset + width before + 2 + width name + 2) rest with
        | ok after => rw [hrest] at h; cases h
        | error error' =>
          rw [hrest] at h
          obtain rfl := Except.error.inj h
          obtain ⟨found, hfound, rfl⟩ := ih rest.length (by
            rw [← hlength]
            simp only [List.length_append, opening, closing, List.length_cons, List.length_nil]
            omega) hrest rfl
          -- what stands before the first variable closes with it, and the rest is refused behind it
          have hspelled := fromStr_ok.mp hread
          have hassoc : ∀ whole tail : Chars,
              before ++ (opening ++ (name ++ (closing ++ (whole ++ tail)))) =
                before ++ (opening ++ (name ++ (closing ++ whole))) ++ tail := by
            intro whole tail
            simp only [List.append_assoc]
          have hends : ∀ whole : Chars, whole.getLast? ≠ some '{' →
              (before ++ (opening ++ (name ++ (closing ++ whole)))).getLast? ≠ some '{' := by
            intro whole hend
            rw [← List.append_assoc, ← List.append_assoc]
            exact (getLast?_closed _ whole).mpr hend
          cases hfound with
          | @unclosed whole tail pieces hwhole hend htail =>
            refine ⟨.unclosed (width (before ++ (opening ++ (name ++ (closing ++ whole))))), ?_, ?_⟩
            · rw [hassoc]
              exact .unclosed (.var hbefore hname hspelled hwhole) (hends whole hend) htail
            · have hbyte : offset + width before + 2 + width name + 2 + width whole =
                  offset + width (before ++ (opening ++ (name ++ (closing ++ whole)))) := by
                rw [width_var]
                omega
              exact congrArg TemplateError.unclosed hbyte
          | @unknown whole name' tail pieces hwhole hend hname' hnone =>
            refine ⟨.unknown (.of (trimmed name')), ?_, rfl⟩
            rw [hassoc]
            exact .unknown (.var hbefore hname hspelled hwhole) (hends whole hend) hname' hnone

/-- Behind a whole template, the reader comes to what it would read there. -/
theorem parseFrom_behind {whole rest : Chars} {pieces : List Piece} (hwhole : Spells whole pieces)
    (hend : whole.getLast? ≠ some '{') {error : TemplateError}
    (herror : ∀ (offset : Nat) (before : Chars), ¬opening <:+: before ++ ['{'] →
      parseFrom offset (before ++ (opening ++ rest)) = .error (error.later (offset + width before)))
    (offset : Nat) :
    parseFrom offset (whole ++ (opening ++ rest)) = .error (error.later (offset + width whole)) := by
  induction hwhole generalizing offset with
  | text hlast => exact herror offset _ (not_infix_concat.mpr ⟨hlast, hend⟩)
  | @var before name whole var pieces hbefore hname hspelled hwhole ih =>
    rw [← List.append_assoc, ← List.append_assoc, getLast?_closed] at hend
    have hassoc : before ++ (opening ++ (name ++ (closing ++ whole))) ++ (opening ++ rest) =
        before ++ (opening ++ (name ++ (closing ++ (whole ++ (opening ++ rest))))) := by
      simp only [List.append_assoc]
    rw [hassoc, parseFrom_var hbefore hname, fromStr_ok.mpr hspelled]
    change (parseFrom _ _ >>= _) = _
    have hbyte : offset + width before + 2 + width name + 2 + width whole =
        offset + width (before ++ (opening ++ (name ++ (closing ++ whole)))) := by
      rw [width_var]
      omega
    rw [ih hend, hbyte]
    rfl

theorem parse_of_refused {input : Chars} {error : TemplateError} (h : Refused input error) :
    parse input = .error error := by
  cases h with
  | @unclosed whole rest pieces hwhole hend hrest =>
    have hbehind := @parseFrom_behind whole rest pieces hwhole hend (.unclosed 0)
      (fun offset before hbefore => parseFrom_unclosed hbefore hrest) 0
    rw [parse, hbehind]
    show Except.error (TemplateError.unclosed (0 + width whole + 0)) = _
    rw [Nat.zero_add, Nat.add_zero]
  | @unknown whole name rest pieces hwhole hend hname hnone =>
    refine @parseFrom_behind whole (name ++ (closing ++ rest)) pieces hwhole hend (.unknown (.of (trimmed name)))
      (fun offset before hbefore => ?_) 0
    rw [parseFrom_var hbefore hname, fromStr_error.mpr ⟨rfl, hnone⟩]
    rfl

theorem refused_of_error {input : Chars} {error : TemplateError} (h : parse input = .error error) :
    Refused input error := by
  obtain ⟨found, hfound, rfl⟩ := refused_of_parse h
  cases hfound with
  | @unclosed whole rest pieces hwhole hend hrest =>
    show Refused _ (.unclosed (0 + width whole))
    rw [Nat.zero_add]
    exact .unclosed hwhole hend hrest
  | unknown hwhole hend hname hnone => exact .unknown hwhole hend hname hnone

/-- **Where a template is refused**: exactly at its first `{{` that never closes, by its byte, or that
    names no variable. -/
theorem template_refused (input : Chars) (error : TemplateError) :
    parse input = .error error ↔ Refused input error := ⟨refused_of_error, parse_of_refused⟩

/-! ## What is rendered -/

section
variable (vars : TemplateVar → Option Chars)

/-- What stands in the place of a piece. -/
def Piece.value : Piece → Chars
  | .text stretch => stretch
  | .var name => (vars name).getD []

/-- The variables some pieces name, in order. -/
def names (pieces : List Piece) : List TemplateVar := pieces.filterMap Piece.name?

/-- What rendering some pieces comes to: the first of their variables without a value, or every value
    in its place. -/
theorem renderPieces_eq (pieces : List Piece) :
    renderPieces vars pieces = ((names pieces).find? fun name => (vars name).isNone).elim
      (.ok (pieces.flatMap (Piece.value vars))) fun name => .error (.undefined name) := by
  induction pieces with
  | nil => rfl
  | cons piece pieces ih =>
    cases piece with
    | text stretch =>
      have hnames : names (.text stretch :: pieces) = names pieces := rfl
      rw [renderPieces, ih, hnames, List.flatMap_cons]
      cases (names pieces).find? fun name => (vars name).isNone with
      | none => rfl
      | some name => rfl
    | var name =>
      have hnames : names (.var name :: pieces) = name :: names pieces := rfl
      rw [renderPieces, hnames, List.find?_cons, List.flatMap_cons]
      cases hvalue : vars name with
      | none => rfl
      | some value =>
        dsimp only
        rw [ih]
        have hplace : Piece.value vars (.var name) = value := by rw [Piece.value, hvalue]; rfl
        rw [hplace]
        cases (names pieces).find? fun name => (vars name).isNone with
        | none => rfl
        | some name => rfl

theorem renderTemplate_ok {input : Chars} {pieces : List Piece} (h : parse input = .ok pieces) :
    renderTemplate vars input = renderPieces vars pieces := by
  rw [renderTemplate, h]

theorem templateVariables_ok {input : Chars} {named : List TemplateVar} :
    templateVariables input = .ok named ↔ ∃ pieces, parse input = .ok pieces ∧ names pieces = named := by
  rw [templateVariables]
  cases parse input with
  | error error => exact ⟨fun h => (by cases h), fun h => (by obtain ⟨_, h, -⟩ := h; cases h)⟩
  | ok pieces =>
    constructor
    · intro h
      exact ⟨pieces, rfl, Except.ok.inj h⟩
    · rintro ⟨other, hother, rfl⟩
      rw [Except.ok.inj hother]
      rfl

/-- No variable is missing where each has a value. -/
theorem find?_isNone_eq_none {named : List TemplateVar} :
    (named.find? fun name => (vars name).isNone) = none ↔ ∀ name ∈ named, (vars name).isSome = true := by
  rw [List.find?_eq_none]
  refine forall₂_congr fun name _ => ?_
  cases vars name with
  | none => simp
  | some value => simp

/-- **What a template renders to**: its texts and its variables' values in their places, where each
    variable it lists has one; the first that has none refuses it. -/
theorem template_rendered (input : Chars) :
    (∀ out, renderTemplate vars input = .ok out ↔ ∃ pieces, Spells input pieces ∧
      (∀ name ∈ names pieces, (vars name).isSome = true) ∧ out = pieces.flatMap (Piece.value vars)) ∧
    ((∃ out, renderTemplate vars input = .ok out) ↔ ∃ named, templateVariables input = .ok named ∧
      ∀ name ∈ named, (vars name).isSome = true) ∧
    ∀ name, renderTemplate vars input = .error (.undefined name) ↔
      ∃ named, templateVariables input = .ok named ∧
        (named.find? fun name => (vars name).isNone) = some name := by
  cases hparse : parse input with
  | error error =>
    have hrefused : renderTemplate vars input = .error error := by rw [renderTemplate, hparse]
    have hlist : ∀ named, templateVariables input ≠ .ok named := by
      intro named h
      obtain ⟨pieces, hpieces, -⟩ := templateVariables_ok.mp h
      rw [hparse] at hpieces
      cases hpieces
    have hspelled : ∀ pieces, ¬Spells input pieces := by
      intro pieces h
      rw [parse, parse_of_spells h] at hparse
      cases hparse
    have hnever : ∀ name, error ≠ .undefined name := by
      rintro name rfl
      cases (refused_of_error hparse)
    simp [hrefused, hlist, hspelled, hnever]
  | ok pieces =>
    have hrender := (renderTemplate_ok vars hparse).trans (renderPieces_eq vars pieces)
    have hlist : ∀ named, templateVariables input = .ok named ↔ named = names pieces := by
      intro named
      rw [templateVariables_ok]
      constructor
      · rintro ⟨other, hother, rfl⟩
        rw [hparse] at hother
        rw [Except.ok.inj hother]
      · rintro rfl
        exact ⟨pieces, hparse, rfl⟩
    have hspelled : ∀ other, Spells input other ↔ other = pieces := by
      intro other
      constructor
      · intro h
        rw [parse, parse_of_spells h] at hparse
        exact Except.ok.inj hparse
      · rintro rfl
        exact spells_of_parse hparse
    simp only [hlist, hspelled, exists_eq_left]
    cases hfind : (names pieces).find? fun name => (vars name).isNone with
    | none =>
      rw [hfind, Option.elim_none] at hrender
      have hall := (find?_isNone_eq_none vars).mp hfind
      rw [hrender]
      exact ⟨fun out => ⟨fun h => ⟨hall, (Except.ok.inj h).symm⟩, fun h => by rw [h.2]⟩,
        ⟨fun _ => hall, fun _ => ⟨_, rfl⟩⟩, fun name => ⟨fun h => (by cases h), fun h => (by cases h)⟩⟩
    | some missing =>
      rw [hfind, Option.elim_some] at hrender
      have hnot : ¬∀ name ∈ names pieces, (vars name).isSome = true := by
        rw [← find?_isNone_eq_none, hfind]
        exact Option.some_ne_none _
      simp [hrender, hnot]

end

end Yunta.Template
