/-
  Two external gates on one branch, told from the workflow alone.

  1. **The check** — each gate's branch is a template; `renderedBranch` renders it with the gate's own
     id, and leaves every other variable standing as it is spelled.  A branch rendered before is refused.

  2. **The run** — a gate renders its branch with its own id and the run's values, whatever they are.

  3. **Main result** — `gates_refused`: two gates are refused exactly where every run renders them to
     the same branch.  Its heart is `renderedBranch_spec`: what the check rendered is a template again,
     and a run renders it as it renders the gate's own.

  A gate's id holds no brace, so an id put into a template opens nothing there.
-/
import Yunta.Session.Template

set_option linter.unusedVariables false

namespace Yunta.Branches

open Yunta.Template
open Yunta.WorkflowAudit (isNodeId)

/-! ## The check -/

structure NodeId where
  text : String
  named : isNodeId text = true
  deriving DecidableEq

/-- A node of a workflow, with its branch where it is an external gate. -/
structure Node where
  id : NodeId
  external : Option Chars
  deriving DecidableEq

/-- Values with the gate's own id in the place of `{{node.id}}`. -/
def withId (vars : TemplateVar → Option Chars) (node : NodeId) (name : TemplateVar) : Option Chars :=
  if name = .nodeId then some node.text.toList else vars name

/-- Each variable stands for itself. -/
def standing (name : TemplateVar) : Option Chars := some name.braced

/-- `template` as a run of the gate `node` renders it, as far as the workflow alone can tell. -/
def renderedBranch (template : Chars) (node : NodeId) : Option Chars :=
  match templateVariables template with
  | .error _ => none
  | .ok named =>
    (renderTemplate (fun name => if name ∈ named then withId standing node name else none)
      template).toOption

/-- The branch a node comes to, where it is an external gate and its template reads. -/
def branchOf (node : Node) : Option Chars :=
  node.external.bind fun template => renderedBranch template node.id

structure ExternalGatesShareBranch where
  first : NodeId
  second : NodeId
  branch : Chars
  deriving DecidableEq

/-- Goes on over the nodes, with the branches seen and the gate each was first seen at. -/
def checkFrom (seen : List (Chars × NodeId)) : List Node → List ExternalGatesShareBranch
  | [] => []
  | node :: nodes =>
    match branchOf node with
    | none => checkFrom seen nodes
    | some branch =>
      match seen.find? fun taken => taken.1 = branch with
      | some taken => ⟨taken.2, node.id, branch⟩ :: checkFrom seen nodes
      | none => checkFrom (seen ++ [(branch, node.id)]) nodes

/-- Refuses two external gates that come to one branch. -/
def checkGatesShareNoBranch (nodes : List Node) : List ExternalGatesShareBranch := checkFrom [] nodes

/-! ## What the check renders -/

/-- What stands in the place of a piece where a gate's id is known and nothing else is. -/
def settled (node : NodeId) (pieces : List Template.Piece) : Chars :=
  pieces.flatMap (Template.Piece.value (withId standing node))

theorem brace_notMem_id (node : NodeId) : '{' ∉ node.text.toList := by
  have hname : ∀ text : Chars, WorkflowAudit.isName text = true → '{' ∉ text := fun text h hmem =>
    absurd (plain_of_isName h _ hmem) (by decide)
  have hnamed := node.named
  rw [isNodeId] at hnamed
  split at hnamed
  · next base runner hcut =>
    rw [Bool.and_eq_true] at hnamed
    rw [(Str.found_of_splitOnce hcut).cut]
    intro hmem
    rcases List.mem_append.mp hmem with hmem | hmem
    · exact hname base hnamed.1 hmem
    · rcases List.mem_cons.mp hmem with hat | hmem
      · exact absurd hat (by decide)
      · exact hname runner hnamed.2 hmem
  · exact hname _ hnamed

/-- A text that neither holds a `{{` nor ends with a brace it could come of. -/
def Still (front : Chars) : Prop := ¬opening <:+: front ++ ['{']

theorem Still.append {front text : Chars} (hfront : Still front) (htext : Still text) :
    Still (front ++ text) := by
  rw [Still, List.append_assoc]
  exact Replace.not_twice_append hfront htext

theorem still_of_notMem {text : Chars} (h : '{' ∉ text) : Still text := by
  refine not_infix_concat.mpr ⟨fun hwithin => h (hwithin.subset List.mem_cons_self), fun hlast => ?_⟩
  exact h (List.mem_of_getLast? hlast)

/-- What rendering with values comes to behind a stretch of text. -/
theorem renderPieces_textOf (vars : TemplateVar → Option Chars) (text : Chars)
    (pieces : List Template.Piece) :
    renderPieces vars (textOf text ++ pieces) = (renderPieces vars pieces).map (text ++ ·) := by
  rw [textOf]
  split
  · next hnil =>
    rw [hnil, List.nil_append]
    cases renderPieces vars pieces with
    | error error => rfl
    | ok out => rfl
  · rfl

theorem settled_textOf (node : NodeId) (text : Chars) (pieces : List Template.Piece) :
    settled node (textOf text ++ pieces) = text ++ settled node pieces := by
  rw [textOf]
  split
  · next hnil => rw [hnil]; rfl
  · rfl

/-- **What the check renders is a template again**, and values put into it render it as they render the
    gate's own template with its id. -/
theorem settled_spells {template : Chars} {pieces : List Template.Piece}
    (h : Template.Spells template pieces) (node : NodeId) {front : Chars} (hfront : Still front) :
    ∃ after, Template.Spells (front ++ settled node pieces) after ∧
      ∀ vars : TemplateVar → Option Chars,
        renderPieces vars after = (renderPieces (withId vars node) pieces).map (front ++ ·) := by
  induction h generalizing front with
  | @text last hlast =>
    have hsettled : settled node (textOf last) = last := by
      have happend := settled_textOf node last []
      rwa [List.append_nil, show settled node [] = [] from rfl, List.append_nil] at happend
    rw [hsettled]
    refine ⟨_, .text (Replace.not_twice_append hfront hlast), fun vars => ?_⟩
    have hleft := renderPieces_textOf vars (front ++ last) []
    have hright := renderPieces_textOf (withId vars node) last []
    rw [List.append_nil] at hleft hright
    rw [hleft, hright]
    show Except.ok (front ++ last ++ []) = Except.ok (front ++ (last ++ []))
    rw [List.append_nil, List.append_nil]
  | @var before name rest var pieces hbefore hname hspelled hrest ih =>
    have hstill : Still (front ++ before) := hfront.append hbefore
    rw [settled_textOf]
    by_cases hid : var = .nodeId
    · -- the gate's id joins the text before it
      subst hid
      obtain ⟨after, hafter, hrender⟩ := ih (hstill.append (still_of_notMem (brace_notMem_id node)))
      have hsettled : settled node (.var .nodeId :: pieces) = node.text.toList ++ settled node pieces := rfl
      rw [hsettled, ← List.append_assoc, ← List.append_assoc]
      refine ⟨after, hafter, fun vars => ?_⟩
      rw [hrender, renderPieces_textOf]
      show _ = Except.map _ (Except.map _ ((renderPieces (withId vars node) pieces).map (node.text.toList ++ ·)))
      cases renderPieces (withId vars node) pieces with
      | error error => rfl
      | ok out =>
        show Except.ok (front ++ before ++ node.text.toList ++ out) =
          Except.ok (front ++ (before ++ (node.text.toList ++ out)))
        rw [List.append_assoc, List.append_assoc]
    · -- any other variable stands as it is spelled
      obtain ⟨after, hafter, hrender⟩ := ih (still_of_notMem List.not_mem_nil)
      have hvalue : withId standing node var = some var.braced := if_neg hid
      have hsettled : settled node (.var var :: pieces) =
          opening ++ (var.spelling ++ (closing ++ settled node pieces)) := by
        show (withId standing node var).getD [] ++ settled node pieces = _
        rw [hvalue]
        show opening ++ (var.spelling ++ closing) ++ settled node pieces = _
        rw [List.append_assoc, List.append_assoc]
      rw [hsettled, ← List.append_assoc]
      refine ⟨_, .var hstill (spelling_closes var) (trimmed_spelling var) hafter, fun vars => ?_⟩
      rw [renderPieces_textOf, renderPieces_textOf, renderPieces, renderPieces, hrender]
      have hsame : withId vars node var = vars var := if_neg hid
      rw [hsame]
      cases vars var with
      | none => rfl
      | some value =>
        cases renderPieces (withId vars node) pieces with
        | error error => rfl
        | ok out =>
          show Except.ok (front ++ before ++ (value ++ ([] ++ out))) =
            Except.ok (front ++ (before ++ (value ++ out)))
          rw [List.nil_append, List.append_assoc]

theorem standing_isSome (node : NodeId) (name : TemplateVar) : (withId standing node name).isSome = true := by
  rw [withId]
  split
  · rfl
  · rfl

/-- Where each name a template lists has a value, it renders to those values in their places. -/
theorem renderTemplate_values {template : Chars} {pieces : List Template.Piece}
    (h : Template.Spells template pieces)
    {vars : TemplateVar → Option Chars} (hvars : ∀ name ∈ names pieces, (vars name).isSome = true) :
    renderTemplate vars template = .ok (pieces.flatMap (Template.Piece.value vars)) := by
  rw [renderTemplate_ok vars (parse_of_spells h), renderPieces_eq, (find?_isNone_eq_none vars).mpr hvars,
    Option.elim_none]

theorem renderedBranch_ok {template : Chars} {pieces : List Template.Piece}
    (h : Template.Spells template pieces)
    (node : NodeId) : renderedBranch template node = some (settled node pieces) := by
  have hnamed : templateVariables template = .ok (names pieces) :=
    templateVariables_ok.mpr ⟨pieces, parse_of_spells h, rfl⟩
  rw [renderedBranch, hnamed]
  dsimp only
  rw [renderTemplate_values h fun name hname => by rw [if_pos hname]; exact standing_isSome node name]
  refine congrArg some (List.flatMap_congr fun piece hpiece => ?_)
  cases piece with
  | text stretch => rfl
  | var name =>
    have hmem : name ∈ names pieces := List.mem_filterMap.mpr ⟨_, hpiece, rfl⟩
    show ((if name ∈ names pieces then withId standing node name else none).getD []) = _
    rw [if_pos hmem]
    rfl

theorem renderedBranch_some {template : Chars} {node : NodeId} {branch : Chars}
    (h : renderedBranch template node = some branch) :
    ∃ pieces, Template.Spells template pieces ∧ settled node pieces = branch := by
  cases hparse : parse template with
  | error error =>
    have hnone : templateVariables template = .error error := by rw [templateVariables, hparse]; rfl
    rw [renderedBranch, hnone] at h
    cases h
  | ok pieces =>
    have hspells := spells_of_parse hparse
    rw [renderedBranch_ok hspells] at h
    exact ⟨pieces, hspells, Option.some.inj h⟩

/-! ## Two gates on one branch -/

/-- Whatever values a run has, two gates render their branches to the same one. -/
structure ShareBranch (first second : Node) : Prop where
  same : ∃ template other, first.external = some template ∧ second.external = some other ∧
    (∃ pieces, Template.Spells template pieces) ∧ (∃ pieces, Template.Spells other pieces) ∧
    ∀ vars, renderTemplate (withId vars first.id) template = renderTemplate (withId vars second.id) other

/-- A run renders two templates alike, whatever its values, exactly where the check does. -/
theorem settled_eq_iff {template other : Chars} {pieces pieces' : List Template.Piece}
    (h : Template.Spells template pieces) (h' : Template.Spells other pieces')
    (first second : NodeId) :
    settled first pieces = settled second pieces' ↔
      ∀ vars, renderTemplate (withId vars first) template = renderTemplate (withId vars second) other := by
  have hrender : ∀ {input : Chars} {read : List Template.Piece}, Template.Spells input read →
      ∀ vars, renderTemplate vars input = renderPieces vars read := fun hread vars =>
    renderTemplate_ok vars (parse_of_spells hread)
  constructor
  · intro heq vars
    have hstill : Still [] := still_of_notMem List.not_mem_nil
    obtain ⟨after, hafter, hsame⟩ := settled_spells h first hstill
    obtain ⟨after', hafter', hsame'⟩ := settled_spells h' second hstill
    have hafters : after = after' := by
      have hread := @parse_of_spells 0 _ _ hafter
      rw [heq, parse_of_spells hafter'] at hread
      exact (Except.ok.inj hread).symm
    have hid : ∀ result : Except TemplateError Chars, result.map ([] ++ ·) = result := by
      intro result
      cases result with
      | error error => rfl
      | ok out => rfl
    rw [hrender h, hrender h', ← hid (renderPieces _ pieces), ← hid (renderPieces _ pieces'), ← hsame,
      ← hsame', hafters]
  · intro hall
    have hboth := hall standing
    rw [renderTemplate_values h fun name _ => standing_isSome first name,
      renderTemplate_values h' fun name _ => standing_isSome second name] at hboth
    exact Except.ok.inj hboth

theorem shareBranch_iff {first second : Node} :
    ShareBranch first second ↔ ∃ branch, branchOf first = some branch ∧ branchOf second = some branch := by
  constructor
  · rintro ⟨template, other, hfirst, hsecond, ⟨pieces, hpieces⟩, ⟨pieces', hpieces'⟩, hsame⟩
    refine ⟨settled first.id pieces, ?_, ?_⟩
    · rw [branchOf, hfirst]
      exact renderedBranch_ok hpieces first.id
    · rw [branchOf, hsecond, (settled_eq_iff hpieces hpieces' first.id second.id).mpr hsame]
      exact renderedBranch_ok hpieces' second.id
  · rintro ⟨branch, hfirst, hsecond⟩
    obtain ⟨template, htemplate, hbranch⟩ := Option.bind_eq_some_iff.mp hfirst
    obtain ⟨other, hother, hbranch'⟩ := Option.bind_eq_some_iff.mp hsecond
    obtain ⟨pieces, hpieces, rfl⟩ := renderedBranch_some hbranch
    obtain ⟨pieces', hpieces', heq⟩ := renderedBranch_some hbranch'
    exact ⟨template, other, htemplate, hother, ⟨pieces, hpieces⟩, ⟨pieces', hpieces'⟩,
      (settled_eq_iff hpieces hpieces' first.id second.id).mp heq.symm⟩

/-! ## The check over a workflow -/

/-- A node's branch and id, where the check renders one. -/
def marked (node : Node) : Option (Chars × NodeId) := (branchOf node).map fun branch => (branch, node.id)

/-- A branch seen before need not be kept again. -/
theorem find?_seen {seen : List (Chars × NodeId)} {branch : Chars} {taken : Chars × NodeId}
    (hseen : (seen.find? fun taken => taken.1 = branch) = some taken) (id : NodeId)
    (rest : List (Chars × NodeId)) (other : Chars) :
    ((seen ++ (branch, id) :: rest).find? fun taken => taken.1 = other) =
      (seen ++ rest).find? fun taken => taken.1 = other := by
  rw [List.find?_append, List.find?_append, List.find?_cons]
  by_cases hother : branch = other
  · subst hother
    rw [hseen]
    rfl
  · rw [decide_eq_false hother]

/-- What the check refuses: each node whose branch one before it came to, by the first that did. -/
theorem mem_checkFrom (seen : List (Chars × NodeId)) (nodes : List Node) (e : ExternalGatesShareBranch) :
    e ∈ checkFrom seen nodes ↔ ∃ before node after, nodes = before ++ node :: after ∧
      branchOf node = some e.branch ∧ node.id = e.second ∧
      ((seen ++ before.filterMap marked).find? fun taken => taken.1 = e.branch) =
        some (e.branch, e.first) := by
  induction nodes generalizing seen with
  | nil =>
    refine ⟨fun h => (by cases h), ?_⟩
    rintro ⟨before, node, after, hnodes, -⟩
    exact absurd hnodes.symm (List.append_ne_nil_of_right_ne_nil _ (List.cons_ne_nil _ _))
  | cons node nodes ih =>
    -- the places of a list are its first and those of what follows
    have hplaces : ∀ {P : List Node → Node → Prop},
        (∃ before other after, node :: nodes = before ++ other :: after ∧ P before other) ↔
          P [] node ∨ ∃ before other after, nodes = before ++ other :: after ∧ P (node :: before) other := by
      intro P
      constructor
      · rintro ⟨before, other, after, hnodes, hholds⟩
        cases before with
        | nil =>
          obtain ⟨rfl, rfl⟩ := List.cons.inj hnodes
          exact .inl hholds
        | cons first before =>
          obtain ⟨rfl, hrest⟩ := List.cons.inj hnodes
          exact .inr ⟨before, other, after, hrest, hholds⟩
      · rintro (hholds | ⟨before, other, after, rfl, hholds⟩)
        · exact ⟨[], node, nodes, rfl, hholds⟩
        · exact ⟨node :: before, other, after, rfl, hholds⟩
    rw [hplaces, checkFrom]
    cases hbranch : branchOf node with
    | none =>
      have hmarked : marked node = none := by rw [marked, hbranch]; rfl
      dsimp only
      rw [ih]
      refine ⟨fun h => .inr ?_, ?_⟩
      · simpa only [List.filterMap_cons, hmarked] using h
      · rintro (⟨hsome, -⟩ | h)
        · cases hsome
        · simpa only [List.filterMap_cons, hmarked] using h
    | some branch =>
      have hmarked : marked node = some (branch, node.id) := by rw [marked, hbranch]; rfl
      dsimp only
      cases hfind : seen.find? fun taken => taken.1 = branch with
      | some taken =>
        have htaken := List.find?_some hfind
        rw [decide_eq_true_eq] at htaken
        dsimp only
        rw [List.mem_cons, ih]
        refine or_congr ⟨?_, ?_⟩ ?_
        · rintro rfl
          refine ⟨rfl, rfl, ?_⟩
          rw [List.filterMap_nil, List.append_nil, hfind, ← htaken]
        · rintro ⟨hbranch, hid, hseen⟩
          rw [List.filterMap_nil, List.append_nil, ← Option.some.inj hbranch, hfind] at hseen
          obtain ⟨first, second, branch'⟩ := e
          rw [Option.some.inj hseen, hid, Option.some.inj hbranch]
        · simp only [List.filterMap_cons, hmarked, find?_seen hfind node.id]
      | none =>
        dsimp only
        rw [ih]
        constructor
        · intro h
          refine .inr ?_
          simpa only [List.filterMap_cons, hmarked, List.append_assoc, List.singleton_append] using h
        · rintro (⟨hbranch, -, hseen⟩ | h)
          · rw [List.filterMap_nil, List.append_nil, ← Option.some.inj hbranch, hfind] at hseen
            cases hseen
          · simpa only [List.filterMap_cons, hmarked, List.append_assoc, List.singleton_append] using h

/-- The first of some nodes whose branch is one branch. -/
theorem find?_marked {nodes : List Node} {branch : Chars} {id : NodeId} :
    ((nodes.filterMap marked).find? fun taken => taken.1 = branch) = some (branch, id) ↔
      ∃ front first between, nodes = front ++ first :: between ∧ branchOf first = some branch ∧
        first.id = id ∧ ∀ other ∈ front, branchOf other ≠ some branch := by
  have hmarks : ∀ node, ((marked node).any fun taken => taken.1 = branch) =
      decide (branchOf node = some branch) := by
    intro node
    rw [marked]
    cases branchOf node with
    | none => rfl
    | some other => simp
  have hfirst : ∀ first, branchOf first = some branch → (marked first = some (branch, id) ↔ first.id = id) := by
    intro first hbranch
    rw [marked, hbranch]
    simp
  simp only [List.find?_filterMap, hmarks, Option.bind_eq_some_iff, List.find?_eq_some_iff_append,
    decide_eq_true_eq, Bool.not_eq_true', decide_eq_false_iff_not]
  constructor
  · rintro ⟨first, ⟨hbranch, front, between, hnodes, hfront⟩, hid⟩
    exact ⟨front, first, between, hnodes, hbranch, (hfirst first hbranch).mp hid, hfront⟩
  · rintro ⟨front, first, between, hnodes, hbranch, hid, hfront⟩
    exact ⟨first, ⟨hbranch, front, between, hnodes, hfront⟩, (hfirst first hbranch).mpr hid⟩

/-- A node comes to a branch where its template renders to it, each other variable standing. -/
theorem branchOf_eq_some {node : Node} {branch : Chars} (h : branchOf node = some branch) :
    node.external.map (renderTemplate (withId standing node.id)) = some (.ok branch) := by
  obtain ⟨template, htemplate, hbranch⟩ := Option.bind_eq_some_iff.mp h
  obtain ⟨pieces, hpieces, rfl⟩ := renderedBranch_some hbranch
  rw [htemplate, Option.map_some, renderTemplate_values hpieces fun name _ => standing_isSome node.id name]
  rfl

/-- The check goes over the nodes once, and refuses each at most once. -/
theorem checkFrom_sublist (seen : List (Chars × NodeId)) (nodes : List Node) :
    ((checkFrom seen nodes).map (·.second)).Sublist (nodes.map (·.id)) := by
  induction nodes generalizing seen with
  | nil => exact List.Sublist.slnil
  | cons node nodes ih =>
    rw [checkFrom]
    split
    · exact (ih seen).cons _
    · split
      · exact (ih seen).cons_cons _
      · exact (ih _).cons _

/-- **What the check refuses**: just the gates that come to one branch whatever values a run has, each
    once, beside the first gate before it that does, by the branch the workflow alone tells. -/
theorem gates_refused (nodes : List Node) :
    ((checkGatesShareNoBranch nodes).map (·.second)).Sublist (nodes.map (·.id)) ∧
    ∀ e, e ∈ checkGatesShareNoBranch nodes ↔ ∃ front first between second after,
      nodes = front ++ first :: (between ++ second :: after) ∧ ShareBranch first second ∧
      (∀ other ∈ front, ¬ShareBranch other second) ∧ first.id = e.first ∧ second.id = e.second ∧
      second.external.map (renderTemplate (withId standing second.id)) = some (.ok e.branch) := by
  refine ⟨checkFrom_sublist [] nodes, fun e => ?_⟩
  rw [checkGatesShareNoBranch, mem_checkFrom]
  simp only [List.nil_append, find?_marked]
  constructor
  · rintro ⟨before, second, after, rfl, hsecond, hid, front, first, between, rfl, hfirst, hid', hfront⟩
    refine ⟨front, first, between, second, after, by simp, shareBranch_iff.mpr ⟨_, hfirst, hsecond⟩,
      fun other hother hshare => ?_, hid', hid, branchOf_eq_some hsecond⟩
    obtain ⟨branch, hbranch, hbranch'⟩ := shareBranch_iff.mp hshare
    rw [hsecond] at hbranch'
    exact hfront other hother (by rw [hbranch, ← hbranch'])
  · rintro ⟨front, first, between, second, after, rfl, hshare, hfront, hid', hid, hrender⟩
    obtain ⟨branch, hfirst, hsecond⟩ := shareBranch_iff.mp hshare
    have heq : branch = e.branch := by
      have hrendered := branchOf_eq_some hsecond
      rw [hrender] at hrendered
      exact (Except.ok.inj (Option.some.inj hrendered)).symm
    subst heq
    refine ⟨front ++ first :: between, second, after, by simp, hsecond, hid, front, first, between, rfl,
      hfirst, hid', fun other hother hbranch => ?_⟩
    exact hfront other hother (shareBranch_iff.mpr ⟨_, hbranch, hsecond⟩)

end Yunta.Branches
