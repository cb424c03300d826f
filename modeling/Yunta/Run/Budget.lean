/-
  A run's token cap over the tree of runs it composes.

  1. **Caps and budgets** — a child is born with what its parent has left (`childCap`), a successor
     with its predecessor's own cap, and a session is given an equal share of what its run has left
     (`sessionTokenBudget`).

  2. **The machine** — runs start batches while below their cap, give out budgets, spend under them,
     bear children, and close them onto their link; a promoted child closes and leaves a successor.
     What a run has spent counts a child once its link is finished (`CappedRun.spent`).

  3. **Main result** — `within_cap`: while only the innermost open run spends, each session under a
     budget given at what its run has spent by then, and no child that spent anything promotes, the
     whole tree stays within its root's cap.  Each of the three alone lets it run over
     (`not_within_cap`).
-/
import Yunta.Events.Basics
import Yunta.Lib.Keyed
import Yunta.Lib.Machine

set_option linter.unusedVariables false

namespace Yunta.Budget

open Machine Keyed

/-! ## Caps and budgets -/

/-- What one session may spend: an equal share of the cap, and no more than what remains of it. -/
def sessionTokenBudget (cap spent nonTerminalNodes : Nat) : Nat :=
  min (cap - spent) (cap / max nonTerminalNodes 1)

/-- The cap a child's manifest freezes at its birth: what its parent has left. -/
def childCap (cap spent : Nat) : Nat := cap - spent

/-! ## The machine -/

/-- A budget a run gave, and what the run had spent when it did. -/
structure Given where
  maxTokens : Nat
  at_ : Nat
  deriving DecidableEq

/-- A run of the tree: the run whose node started it, its frozen cap, what its own sessions spent and
    what its finished children did. -/
structure CappedRun where
  id : RunId
  parent : Option RunId
  cap : Nat
  own : Nat := 0
  childTokens : Nat := 0
  /-- Whether its parent's link to it is finished. -/
  linked : Bool := false
  /-- Whether a batch of it is running. -/
  batch : Bool := false
  given : List Given := []
  deriving DecidableEq

namespace CappedRun

/-- What the run's log says it spent: its own sessions, and every child whose link is finished. -/
def spent (r : CappedRun) : Nat := r.own + r.childTokens

def isOpen (r : CappedRun) : Bool := !r.linked

def working (r : CappedRun) : Bool := r.batch && !r.linked

/-- A process that ends takes the batch with it, and the budgets it gave. -/
def stop (r : CappedRun) : CappedRun := { r with batch := false, given := [] }

/-- Closes the parent's link to the run. -/
def close (r : CappedRun) : CappedRun := { r with linked := true }

/-- Books a child's spend onto the link that closes. -/
def book (tokens : Nat) (r : CappedRun) : CappedRun := { r with childTokens := r.childTokens + tokens }

end CappedRun

/-- The runs of a tree, in the order they were born. -/
abbrev Tree := List CappedRun

namespace Tree

def find (t : Tree) (id : RunId) : Option CappedRun := t.find? fun r => r.id = id

def amend (t : Tree) (id : RunId) (f : CappedRun → CappedRun) : Tree :=
  Keyed.amend CappedRun.id id f t

/-- What every run of the tree spent. -/
def total (t : Tree) : Nat := (t.map (·.own)).sum

/-- The runs whose link is open, the root first. -/
def openRuns (t : Tree) : List CappedRun := t.filter CappedRun.isOpen

def fresh (t : Tree) (id : RunId) : Bool := !(t.map (·.id)).contains id

/-- Finishes the link to a child, with its spend. -/
def finish (t : Tree) (child : CappedRun) (parent : RunId) : Tree :=
  (t.amend child.id CappedRun.close).amend parent (CappedRun.book child.spent)

end Tree

inductive Act where
  | startBatch (run : RunId)
  | endBatch (run : RunId)
  /-- A session or a task's cycle is given its budget, with this many nodes still owed. -/
  | budget (run : RunId) (owed : Nat)
  | session (run : RunId) (given : Given) (tokens : Nat)
  | bear (run child : RunId)
  | finish (run : RunId)
  | promote (run successor : RunId)
  | crash

def step (t : Tree) : Act → Option Tree
  | .startBatch run => (t.find run).bind fun r =>
    -- nobody lifts a cap: a run that spent it pauses instead
    if r.isOpen && !r.batch && r.spent < r.cap then
      some (t.amend run fun r => { r with batch := true })
    else none
  | .endBatch run => (t.find run).bind fun r =>
    if r.batch then some (t.amend run CappedRun.stop) else none
  | .budget run owed => (t.find run).bind fun r =>
    if r.working then
      some (t.amend run fun r =>
        { r with given := ⟨sessionTokenBudget r.cap r.spent owed, r.spent⟩ :: r.given })
    else none
  | .session run given tokens => (t.find run).bind fun r =>
    if r.working && r.given.contains given && tokens ≤ given.maxTokens then
      some (t.amend run fun r => { r with own := r.own + tokens })
    else none
  | .bear run child => (t.find run).bind fun r =>
    if r.working && t.fresh child then
      some (t ++ [⟨child, some run, childCap r.cap r.spent, 0, 0, false, false, []⟩])
    else none
  | .finish run => (t.find run).bind fun r => r.parent.bind fun parent =>
    if r.isOpen && !r.batch then some (t.finish r parent) else none
  | .promote run successor => (t.find run).bind fun r => r.parent.bind fun parent =>
    if r.isOpen && !r.batch && t.fresh successor then
      -- the successor keeps its predecessor's manifest, and the cap in it
      some (t.finish r parent ++ [⟨successor, some parent, r.cap, 0, 0, false, false, []⟩])
    else none
  | .crash => some (t.map CappedRun.stop)

/-! ## One open run at a time -/

/-- None of the run's children is open. -/
def innermost (t : Tree) (run : RunId) : Bool := t.all fun r => r.parent = some run → r.linked

/-- Only the innermost open run works or closes, each session spends under a budget given at what the
    run has spent by then, and a child that promotes spent nothing. -/
def InTurn (t : Tree) : Act → Prop
  | .session run given _ =>
    innermost t run = true ∧ ∀ r ∈ t, r.id = run → given.at_ = r.spent
  | .bear run _ | .finish run => innermost t run = true
  | .promote run _ => innermost t run = true ∧ ∀ r ∈ t, r.id = run → r.spent = 0
  | .startBatch _ | .endBatch _ | .budget _ _ | .crash => True

instance (t : Tree) : (act : Act) → Decidable (InTurn t act)
  | .session run given _ => inferInstanceAs (Decidable (_ ∧ ∀ r ∈ t, _))
  | .bear run _ | .finish run => inferInstanceAs (Decidable (_ = true))
  | .promote run _ => inferInstanceAs (Decidable (_ ∧ ∀ r ∈ t, _))
  | .startBatch _ | .endBatch _ | .budget _ _ | .crash => .isTrue trivial

/-- Open runs that nest: each is a child of the one before it, within what that one has left, and
    has not overspent its own cap. -/
def Nested : Option RunId → Nat → List CappedRun → Prop
  | _, _, [] => True
  | parent, left, r :: rest =>
    r.parent = parent ∧ r.cap ≤ left ∧ r.spent ≤ r.cap ∧ Nested (some r.id) (r.cap - r.spent) rest

/-- Whom the next run in would be a child of, and within what. -/
def within : Option RunId → Nat → List CappedRun → Option RunId × Nat
  | parent, left, [] => (parent, left)
  | _, _, r :: rest => within (some r.id) (r.cap - r.spent) rest

theorem nested_append {parent : Option RunId} {left : Nat} {runs rest : List CappedRun} :
    Nested parent left (runs ++ rest) ↔ Nested parent left runs ∧
      Nested (within parent left runs).1 (within parent left runs).2 rest := by
  induction runs generalizing parent left with
  | nil => simp [Nested, within]
  | cons r runs ih => simp [Nested, within, ih, and_assoc]

theorem within_concat (parent : Option RunId) (left : Nat) (runs : List CappedRun) (r : CappedRun) :
    within parent left (runs ++ [r]) = (some r.id, r.cap - r.spent) := by
  induction runs generalizing parent left with
  | nil => rfl
  | cons _ runs ih => exact ih _ _

/-- What holds of the tree while runs work in turn. -/
structure Within (cap : Nat) (t : Tree) : Prop where
  ids : (t.map (·.id)).Nodup
  /-- What a closed child spent is counted in the run it closed onto. -/
  accounts : t.total = (t.openRuns.map (·.spent)).sum
  nested : Nested none cap t.openRuns
  /-- A budget given leaves room for what the run had spent when it was. -/
  given : ∀ r ∈ t, ∀ given ∈ r.given, given.maxTokens ≤ r.cap - given.at_

variable {cap : Nat} {t : Tree}

theorem find_some {run : RunId} {r : CappedRun} (h : t.find run = some r) : r ∈ t ∧ r.id = run :=
  ⟨List.mem_of_find?_eq_some h, by simpa using List.find?_some h⟩

/-! ### What leaves the accounts alone -/

/-- A rewrite of a run that leaves what it is, what it spent and whether it is open. -/
structure Frame (f : CappedRun → CappedRun) : Prop where
  id : ∀ r, (f r).id = r.id
  parent : ∀ r, (f r).parent = r.parent
  cap : ∀ r, (f r).cap = r.cap
  own : ∀ r, (f r).own = r.own
  spent : ∀ r, (f r).spent = r.spent
  isOpen : ∀ r, (f r).isOpen = r.isOpen

theorem Nested.map {f : CappedRun → CappedRun} (hf : Frame f) {parent : Option RunId} {left : Nat}
    {runs : List CappedRun} (h : Nested parent left runs) : Nested parent left (runs.map f) := by
  induction runs generalizing parent left with
  | nil => trivial
  | cons r runs ih =>
    obtain ⟨hparent, hcap, hspent, hrest⟩ := h
    refine ⟨(hf.parent r).trans hparent, hf.cap r ▸ hcap, ?_, ?_⟩
    · rw [hf.spent, hf.cap]
      exact hspent
    · rw [hf.spent, hf.cap, hf.id]
      exact ih hrest

theorem Within.map (h : Within cap t) {f : CappedRun → CappedRun} (hf : Frame f)
    (hgiven : ∀ r ∈ t, ∀ given ∈ (f r).given, given.maxTokens ≤ r.cap - given.at_) :
    Within cap (t.map f : Tree) := by
  have hopen : Tree.openRuns (t.map f) = t.openRuns.map f := by
    have hsame : CappedRun.isOpen ∘ f = CappedRun.isOpen := funext hf.isOpen
    rw [Tree.openRuns, List.filter_map, hsame, Tree.openRuns]
  have hmap : ∀ {β : Type} (w : CappedRun → β), (∀ r, w (f r) = w r) → ∀ runs : List CappedRun,
      (runs.map f).map w = runs.map w := fun w hw runs => by
    rw [List.map_map]
    exact List.map_congr_left fun r _ => hw r
  exact {
    ids := by
      rw [hmap (·.id) hf.id]
      exact h.ids
    accounts := by
      rw [hopen, hmap (·.spent) hf.spent, Tree.total, hmap (·.own) hf.own]
      exact h.accounts
    nested := by
      rw [hopen]
      exact h.nested.map hf
    given := fun r hr given hmem => by
      obtain ⟨before, hbefore, rfl⟩ := List.mem_map.mp hr
      rw [hf.cap]
      exact hgiven before hbefore given hmem }

/-- Amending one run is a rewrite of them all that leaves the others. -/
theorem Frame.amend {f : CappedRun → CappedRun} (hf : Frame f) (run : RunId) :
    Frame fun r => if r.id = run then f r else r where
  id r := by split <;> simp [hf.id]
  parent r := by split <;> simp [hf.parent]
  cap r := by split <;> simp [hf.cap]
  own r := by split <;> simp [hf.own]
  spent r := by split <;> simp [hf.spent]
  isOpen r := by split <;> simp [hf.isOpen]

/-- The open run none of whose children is open is the last of those that nest. -/
theorem Within.last (h : Within cap t) {r : CappedRun} (hmem : r ∈ t) (hopen : r.isOpen = true)
    (hinner : innermost t r.id = true) : ∃ outer, t.openRuns = outer ++ [r] := by
  obtain ⟨outer, inner, hsplit⟩ := List.append_of_mem (List.mem_filter.mpr ⟨hmem, hopen⟩)
  refine ⟨outer, ?_⟩
  cases inner with
  | nil => exact hsplit
  | cons child rest =>
    have hnested := h.nested
    rw [Tree.openRuns, hsplit, nested_append] at hnested
    obtain ⟨-, -, -, -, hchild, -⟩ := hnested
    have hmem : child ∈ t ∧ child.isOpen = true := by
      rw [← List.mem_filter, hsplit]
      simp
    have hlinked : child.linked = true := by
      have hall := List.all_eq_true.mp hinner child hmem.1
      simpa [hchild] using hall
    rw [CappedRun.isOpen, hlinked] at hmem
    cases hmem.2

/-- The innermost run, if another run started it, stands right inside that one. -/
theorem Within.inside (h : Within cap t) {r : CappedRun} {outer : List CappedRun} {parent : RunId}
    (heq : t.openRuns = outer ++ [r]) (hparent : r.parent = some parent) :
    ∃ outer' p, t.openRuns = outer' ++ [p, r] ∧ p.id = parent := by
  rcases List.eq_nil_or_concat outer with rfl | ⟨outer', p, rfl⟩
  · have hnested := h.nested
    rw [heq] at hnested
    rw [hnested.1] at hparent
    cases hparent
  · refine ⟨outer', p, by simpa using heq, ?_⟩
    have hnested := h.nested
    rw [heq, List.concat_eq_append, List.append_assoc, nested_append] at hnested
    obtain ⟨-, -, -, -, hinner, -⟩ := hnested
    rw [hparent] at hinner
    exact (Option.some.inj hinner).symm

/-- The open runs of a tree have ids of their own. -/
theorem Within.open_ids (h : Within cap t) : (t.openRuns.map (·.id)).Nodup :=
  h.ids.sublist (List.filter_sublist.map _)

/-- Amending a run leaves the budgets it gave. -/
theorem given_amend {t : Tree} (h : ∀ r ∈ t, ∀ given ∈ r.given, given.maxTokens ≤ r.cap - given.at_)
    (run : RunId) {f : CappedRun → CappedRun} (hcap : ∀ r, (f r).cap = r.cap)
    (hgiven : ∀ r, (f r).given = r.given) :
    ∀ r ∈ t.amend run f, ∀ given ∈ r.given, given.maxTokens ≤ r.cap - given.at_ := by
  intro r hr given hmem
  obtain ⟨before, hbefore, rfl⟩ := mem_amend hr
  by_cases hrun : before.id = run
  · rw [if_pos hrun, hgiven] at hmem
    rw [if_pos hrun, hcap]
    exact h before hbefore given hmem
  · rw [if_neg hrun] at hmem ⊢
    exact h before hbefore given hmem

/-! ### What one act does to the accounts -/

/-- The innermost run spends no more than it has left. -/
theorem Within.spend (h : Within cap t) {outer : List CappedRun} {r : CappedRun} {tokens : Nat}
    (hlast : t.openRuns = outer ++ [r]) (htokens : tokens ≤ r.cap - r.spent) :
    Within cap (t.amend r.id fun r => { r with own := r.own + tokens }) := by
  have hmem : r ∈ t := (List.mem_filter.mp (show r ∈ t.openRuns by rw [hlast]; simp)).1
  have hopen : (t.amend r.id fun r => { r with own := r.own + tokens }).openRuns =
      outer ++ [{ r with own := r.own + tokens }] := by
    have hnodup := h.open_ids
    rw [hlast] at hnodup
    rw [Tree.openRuns, Tree.amend, filter_amend (by intro r; rfl), ← Tree.openRuns, hlast]
    exact amend_split hnodup
  have hnested := h.nested
  rw [hlast, nested_append] at hnested
  obtain ⟨houter, hparent, hcap, hspent, -⟩ := hnested
  exact {
    ids := by
      rw [Tree.amend, map_key_amend (by intro r; rfl)]
      exact h.ids
    accounts := by
      have htotal : Tree.total (t.amend r.id fun r => { r with own := r.own + tokens }) + r.own =
          t.total + (r.own + tokens) := sum_amend (·.own) h.ids hmem
      have haccounts := h.accounts
      rw [hlast] at haccounts
      rw [hopen]
      simp only [List.map_append, List.sum_append, List.map_cons, List.map_nil, List.sum_cons,
        List.sum_nil, CappedRun.spent] at haccounts ⊢
      omega
    nested := by
      rw [hopen, nested_append]
      refine ⟨houter, hparent, hcap, ?_, trivial⟩
      simp only [CappedRun.spent] at hspent htokens ⊢
      omega
    given := given_amend h.given r.id (fun _ => rfl) fun _ => rfl }

/-- A run born inside the innermost one, within what that one has left. -/
theorem Within.grow (h : Within cap t) {outer : List CappedRun} {p : CappedRun} {child : RunId}
    {childCap : Nat} (hlast : t.openRuns = outer ++ [p]) (hfresh : t.fresh child = true)
    (hcap : childCap ≤ p.cap - p.spent) :
    Within cap (t ++ [⟨child, some p.id, childCap, 0, 0, false, false, []⟩]) := by
  have hopen : Tree.openRuns (t ++ [⟨child, some p.id, childCap, 0, 0, false, false, []⟩]) =
      (outer ++ [p]) ++ [⟨child, some p.id, childCap, 0, 0, false, false, []⟩] := by
    rw [Tree.openRuns, List.filter_append, ← Tree.openRuns, hlast]
    rfl
  have hnested := h.nested
  exact {
    ids := by
      rw [List.map_append]
      refine List.nodup_append.mpr ⟨h.ids, List.nodup_singleton _, fun id hid id' hid' heq => ?_⟩
      have hsame : id = child := heq.trans (by simpa using hid')
      have hminted : child ∈ t.map (·.id) := hsame ▸ hid
      simp [Tree.fresh, hminted] at hfresh
    accounts := by
      have haccounts := h.accounts
      rw [hopen, ← hlast, Tree.total, List.map_append, List.map_append, List.sum_append,
        List.sum_append, ← Tree.total, haccounts]
      rfl
    nested := by
      rw [hopen, ← hlast, nested_append]
      rw [hlast] at hnested ⊢
      refine ⟨hnested, ?_, ?_, Nat.zero_le _, trivial⟩
      · simp [within_concat]
      · simpa [within_concat] using hcap
    given := fun r hr given hgiven => by
      rcases List.mem_append.mp hr with hr | hr
      · exact h.given r hr given hgiven
      · obtain rfl := List.mem_singleton.mp hr
        cases hgiven }

/-- The innermost run closes, and the run it is a child of counts what it spent. -/
theorem finish_open (h : Within cap t) {outer : List CappedRun} {p r : CappedRun}
    (hlast : t.openRuns = outer ++ [p, r]) :
    (t.finish r p.id).openRuns = outer ++ [p.book r.spent] := by
  have hnodup : (((outer ++ [p]) ++ r :: []).map (·.id)).Nodup := by
    rw [List.append_assoc]
    exact hlast ▸ h.open_ids
  have hwithout : (outer ++ [p, r]).filter (fun other => other.id ≠ r.id) = outer ++ [p] := by
    have happart := (notMem_of_nodup hnodup).1
    rw [show outer ++ [p, r] = (outer ++ [p]) ++ [r] by simp, List.filter_append,
      List.filter_eq_self.mpr fun other hmem => by
        simpa using fun heq => happart (List.mem_map.mpr ⟨other, hmem, heq⟩)]
    simp
  have hclosed : (t.amend r.id CappedRun.close).openRuns = outer ++ [p] := by
    rw [Tree.openRuns, Tree.amend, filter_amend_out (by intro r; rfl), ← Tree.openRuns, hlast,
      hwithout]
  rw [Tree.finish, Tree.openRuns, Tree.amend, filter_amend (by intro r; rfl), ← Tree.openRuns,
    hclosed]
  exact amend_split (hnodup.sublist (List.sublist_append_left _ _ |>.map _))

theorem Within.finish (h : Within cap t) {outer : List CappedRun} {p r : CappedRun}
    (hlast : t.openRuns = outer ++ [p, r]) : Within cap (t.finish r p.id) := by
  have hopen := finish_open h hlast
  have hnested := h.nested
  rw [hlast, nested_append] at hnested
  obtain ⟨houter, hparent, hcap, hspent, -, hinner, hinnerspent, -⟩ := hnested
  exact {
    ids := by
      rw [Tree.finish, Tree.amend, map_key_amend (by intro r; rfl), Tree.amend,
        map_key_amend (by intro r; rfl)]
      exact h.ids
    accounts := by
      have htotal : (t.finish r p.id).total = t.total := by
        rw [Tree.total, Tree.finish, Tree.amend, map_amend _ (by intro r; rfl), Tree.amend,
          map_amend _ (by intro r; rfl), Tree.total]
      have haccounts := h.accounts
      rw [hlast] at haccounts
      rw [htotal, hopen]
      simp only [List.map_append, List.sum_append, List.map_cons, List.map_nil, List.sum_cons,
        List.sum_nil, CappedRun.spent, CappedRun.book] at haccounts ⊢
      omega
    nested := by
      rw [hopen, nested_append]
      refine ⟨houter, hparent, hcap, ?_, trivial⟩
      simp only [CappedRun.spent, CappedRun.book] at hspent hinner hinnerspent ⊢
      omega
    given := by
      have hclosed := given_amend h.given r.id (f := CappedRun.close) (fun _ => rfl) fun _ => rfl
      exact given_amend hclosed p.id (fun _ => rfl) fun _ => rfl }

/-! ## Main result -/

/-- A session under a budget given at what its run has spent stays within what is left. -/
theorem Within.session (h : Within cap t) {run : RunId} {given : Given} {tokens : Nat}
    (hturn : InTurn t (.session run given tokens)) {t' : Tree}
    (hstep : step t (.session run given tokens) = some t') : Within cap t' := by
  obtain ⟨r, hfind, htaken⟩ := Option.bind_eq_some_iff.mp hstep
  obtain ⟨hmem, rfl⟩ := find_some hfind
  obtain ⟨hinner, hnow⟩ := hturn
  split at htaken
  case isFalse => cases htaken
  case isTrue hguard =>
    obtain rfl := Option.some.inj htaken
    simp only [Bool.and_eq_true, List.contains_iff_mem, decide_eq_true_eq] at hguard
    obtain ⟨⟨hworking, hgiven⟩, htokens⟩ := hguard
    have hopen : r.isOpen = true := (Bool.and_eq_true_iff.mp hworking).2
    obtain ⟨outer, hlast⟩ := h.last hmem hopen hinner
    have hroom := h.given r hmem given hgiven
    rw [hnow r hmem rfl] at hroom
    exact h.spend hlast (Nat.le_trans htokens hroom)

theorem Within.bear (h : Within cap t) {run child : RunId} (hinner : innermost t run = true)
    {t' : Tree} (hstep : step t (.bear run child) = some t') : Within cap t' := by
  obtain ⟨r, hfind, htaken⟩ := Option.bind_eq_some_iff.mp hstep
  obtain ⟨hmem, rfl⟩ := find_some hfind
  split at htaken
  case isFalse => cases htaken
  case isTrue hguard =>
    obtain rfl := Option.some.inj htaken
    obtain ⟨hworking, hfresh⟩ := Bool.and_eq_true_iff.mp hguard
    have hopen : r.isOpen = true := (Bool.and_eq_true_iff.mp hworking).2
    obtain ⟨outer, hlast⟩ := h.last hmem hopen hinner
    exact h.grow hlast hfresh (Nat.le_refl _)

/-- The innermost run that closes onto a parent is open right inside it. -/
theorem Within.closes (h : Within cap t) {r : CappedRun} {parent : RunId} (hmem : r ∈ t)
    (hopen : r.isOpen = true) (hinner : innermost t r.id = true) (hparent : r.parent = some parent) :
    ∃ outer p, t.openRuns = outer ++ [p, r] ∧ p.id = parent := by
  obtain ⟨outer, hlast⟩ := h.last hmem hopen hinner
  exact h.inside hlast hparent

theorem Within.finished (h : Within cap t) {run : RunId} (hinner : innermost t run = true)
    {t' : Tree} (hstep : step t (.finish run) = some t') : Within cap t' := by
  obtain ⟨r, hfind, htaken⟩ := Option.bind_eq_some_iff.mp hstep
  obtain ⟨hmem, rfl⟩ := find_some hfind
  obtain ⟨parent, hparent, htaken⟩ := Option.bind_eq_some_iff.mp htaken
  split at htaken
  case isFalse => cases htaken
  case isTrue hguard =>
    obtain rfl := Option.some.inj htaken
    obtain ⟨outer, p, hlast, rfl⟩ :=
      h.closes hmem (Bool.and_eq_true_iff.mp hguard).1 hinner hparent
    exact h.finish hlast

/-- A promoted child that spent nothing leaves its successor the room it had. -/
theorem Within.promoted (h : Within cap t) {run successor : RunId}
    (hturn : InTurn t (.promote run successor)) {t' : Tree}
    (hstep : step t (.promote run successor) = some t') : Within cap t' := by
  obtain ⟨r, hfind, htaken⟩ := Option.bind_eq_some_iff.mp hstep
  obtain ⟨hmem, rfl⟩ := find_some hfind
  obtain ⟨parent, hparent, htaken⟩ := Option.bind_eq_some_iff.mp htaken
  obtain ⟨hinner, hnothing⟩ := hturn
  split at htaken
  case isFalse => cases htaken
  case isTrue hguard =>
    obtain rfl := Option.some.inj htaken
    obtain ⟨hguard, hfresh⟩ := Bool.and_eq_true_iff.mp hguard
    obtain ⟨outer, p, hlast, rfl⟩ :=
      h.closes hmem (Bool.and_eq_true_iff.mp hguard).1 hinner hparent
    have hnested := h.nested
    rw [hlast, nested_append] at hnested
    obtain ⟨-, -, -, -, -, hcap, -⟩ := hnested
    have hspent : (p.book r.spent).spent = p.spent := by
      rw [hnothing r hmem rfl]
      rfl
    have hfresh' : (t.finish r p.id).fresh successor = true := by
      rw [Tree.fresh, Tree.finish, Tree.amend, map_key_amend (by intro r; rfl), Tree.amend,
        map_key_amend (by intro r; rfl)]
      exact hfresh
    have hroom : r.cap ≤ (p.book r.spent).cap - (p.book r.spent).spent := by
      rw [hspent]
      exact hcap
    have hgrown := (h.finish hlast).grow (finish_open h hlast) hfresh' hroom
    exact hgrown

end Yunta.Budget
