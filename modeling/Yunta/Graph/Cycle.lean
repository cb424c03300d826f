/-
  Cycle detection over a graph of dependencies: a depth-first search in three colours.

  1. **The search** — `visit` colours a node gray on its way in and black on its way out; a gray
     dependency closes a cycle, read off the stack.  `findCycle` visits every node still white.

  2. **Invariant** — `Good`: the stack is a path, the gray nodes are the ones on it, and no path of
     a black node goes on for ever.  A visit that finds nothing leaves the stack as it was and its
     node black (`visit_spec`).

  3. **Main result** — `findCycle_spec`: a cycle is found exactly where the graph has one, and what
     is found is one.
-/
import Yunta.Lib.OrdMap
import Mathlib.Data.List.Chain
import Mathlib.Data.List.Nodup
import Mathlib.Data.List.Perm.Subperm
import Mathlib.Logic.Relation

set_option linter.unusedVariables false
set_option linter.unusedSectionVars false

namespace Yunta.Graph

open Std
open Relation (TransGen)

variable {T : Type} [Ord T] [TransOrd T] [LawfulEqOrd T] [DecidableEq T]

/-! ## The search -/

inductive Color where
  | white
  /-- On the stack, at this position. -/
  | gray (pos : Nat)
  | black
  deriving DecidableEq

/-- The colour of each node, and the nodes the search is inside of, the innermost last. -/
structure Search (T : Type) [Ord T] where
  color : OrdMap T Color
  stack : List T

section
variable (adjacency : OrdMap T (List T))

/-- One dependency of the node the search is inside of. -/
def visitDep (visit : T → Search T → Option (List T) × Search T)
    (acc : Option (List T) × Search T) (dep : T) : Option (List T) × Search T :=
  match acc.1 with
  | some cycle => acc
  | none =>
    -- an unknown target is no cycle
    if adjacency.contains dep then
      match acc.2.color[dep]? with
      | some (.gray pos) => (some (acc.2.stack.drop pos ++ [dep]), acc.2)
      | some .black => acc
      | _ => visit dep acc.2
    else acc

/-- Visits `id`.  The stack never holds a node twice, so `fuel` as large as the graph is never used
    up. -/
def visit : Nat → T → Search T → Option (List T) × Search T
  | 0, _, search => (none, search)
  | fuel + 1, id, search =>
    let entered : Search T :=
      ⟨search.color.insert id (.gray search.stack.length), search.stack ++ [id]⟩
    let (found, search) :=
      ((adjacency[id]?).getD []).foldl (visitDep adjacency (visit fuel)) (none, entered)
    match found with
    | some cycle => (some cycle, search)
    | none => (none, ⟨search.color.insert id .black, search.stack.dropLast⟩)

/-- A root of the search, where it is still white. -/
def visitRoot (acc : Option (List T) × Search T) (id : T) : Option (List T) × Search T :=
  match acc.1 with
  | some cycle => acc
  | none =>
    if acc.2.color[id]? = some .white then visit adjacency (adjacency.keys.length + 1) id acc.2
    else acc

/-- One cycle of the graph, its closing node repeated; `none` where there is none. -/
def findCycle : Option (List T) :=
  (adjacency.keys.foldl (visitRoot adjacency) (none, ⟨adjacency.map fun _ _ => .white, []⟩)).1

end

/-! ## The graph -/

/-- `a` points to `b`, a node of the graph. -/
def Edge (adjacency : OrdMap T (List T)) (a b : T) : Prop :=
  b ∈ (adjacency[a]?).getD [] ∧ b ∈ adjacency.keys

/-- A path that ends where it starts. -/
def IsCycle (adjacency : OrdMap T (List T)) (cycle : List T) : Prop :=
  ∃ a path, cycle = a :: path ++ [a] ∧ cycle.IsChain (Edge adjacency)

section
variable {adjacency : OrdMap T (List T)}

theorem contains_iff_mem_keys {a : T} : adjacency.contains a = true ↔ a ∈ adjacency.keys := by
  rw [ExtTreeMap.mem_keys, ExtTreeMap.mem_iff_contains]

theorem mem_keys_of_edge {a b : T} (h : Edge adjacency a b) : a ∈ adjacency.keys := by
  rw [ExtTreeMap.mem_keys, ExtTreeMap.mem_iff_isSome_getElem?]
  cases ha : adjacency[a]? with
  | none =>
    have hmem := h.1
    rw [ha] at hmem
    cases hmem
  | some deps => rfl

/-- The two ends of a path. -/
theorem transGen_of_isChain {r : T → T → Prop} {a b : T} {path : List T}
    (h : (a :: path ++ [b]).IsChain r) : TransGen r a b := by
  induction path generalizing a with
  | nil =>
    rw [List.cons_append, List.nil_append, List.isChain_cons_cons] at h
    exact .single h.1
  | cons c rest ih =>
    rw [List.cons_append, List.cons_append, List.isChain_cons_cons] at h
    exact .head h.1 (ih h.2)

theorem IsCycle.transGen {cycle : List T} (h : IsCycle adjacency cycle) :
    ∃ a, TransGen (Edge adjacency) a a := by
  obtain ⟨a, path, rfl, hchain⟩ := h
  exact ⟨a, transGen_of_isChain hchain⟩

/-! ## The invariant -/

/-- A node the search has not entered. -/
def Search.Fresh (search : Search T) (a : T) : Prop :=
  search.color[a]? ≠ some .black ∧ ∀ pos, search.color[a]? ≠ some (.gray pos)

/-- What holds of the search between two moves. -/
structure Good (adjacency : OrdMap T (List T)) (search : Search T) : Prop where
  black : ∀ a, search.color[a]? = some .black → Acc (fun b a => Edge adjacency a b) a
  gray : ∀ (a : T) pos, search.color[a]? = some (.gray pos) ↔ search.stack[pos]? = some a
  chain : search.stack.IsChain (Edge adjacency)
  keys : ∀ a ∈ search.stack, a ∈ adjacency.keys

/-- What a visit leaves of the colours: only a fresh node turns, and it turns black. -/
def Calm (before after : Search T) : Prop :=
  after.stack = before.stack ∧ ∀ a : T, after.color[a]? = before.color[a]? ∨
    before.Fresh a ∧ after.color[a]? = some .black

theorem Calm.refl (search : Search T) : Calm search search := ⟨rfl, fun a => .inl rfl⟩

theorem Calm.black {before after : Search T} (h : Calm before after) {a : T}
    (ha : before.color[a]? = some .black) : after.color[a]? = some .black := by
  rcases h.2 a with hsame | ⟨-, hblack⟩
  · exact hsame.trans ha
  · exact hblack

theorem Calm.trans {s t u : Search T} (h : Calm s t) (h' : Calm t u) : Calm s u := by
  refine ⟨h'.1.trans h.1, fun a => ?_⟩
  rcases h.2 a with hsame | ⟨hfresh, hblack⟩
  · rcases h'.2 a with hsame' | ⟨hfresh, hblack⟩
    · exact .inl (hsame'.trans hsame)
    · refine .inr ⟨?_, hblack⟩
      unfold Search.Fresh at hfresh ⊢
      rwa [hsame] at hfresh
  · exact .inr ⟨hfresh, h'.black hblack⟩

/-- No node stands twice on the stack. -/
theorem Good.nodup {search : Search T} (h : Good adjacency search) : search.stack.Nodup := by
  rw [List.nodup_iff_getElem?_ne_getElem?]
  intro i j hij hj heq
  have hat : search.stack[j]? = some search.stack[j] := List.getElem?_eq_getElem hj
  have hi := (h.gray _ i).mpr (heq.trans hat)
  have hj := (h.gray _ j).mpr hat
  rw [hi] at hj
  injection hj with hj
  injection hj with hj
  omega

theorem Good.length_le {search : Search T} (h : Good adjacency search) :
    search.stack.length ≤ adjacency.keys.length :=
  (h.nodup.subperm h.keys).length_le

/-- What a move answers: a cycle, or a search as calm as it was, in which `done` is black. -/
def Moved (adjacency : OrdMap T (List T)) (before : Search T) (done : List T)
    (result : Option (List T) × Search T) : Prop :=
  match result.1 with
  | some cycle => IsCycle adjacency cycle
  | none => Good adjacency result.2 ∧ Calm before result.2 ∧
      ∀ d ∈ done, result.2.color[d]? = some .black

/-- **A gray dependency closes a cycle**: the stack from it on, and the edge back. -/
theorem isCycle_of_gray {search : Search T} (h : Good adjacency search) {dep : T} {pos : Nat}
    (hgray : search.color[dep]? = some (.gray pos)) {id : T}
    (htop : search.stack.getLast? = some id) (hedge : Edge adjacency id dep) :
    IsCycle adjacency (search.stack.drop pos ++ [dep]) := by
  have hat := (h.gray dep pos).mp hgray
  obtain ⟨hlt, hget⟩ := List.getElem?_eq_some_iff.mp hat
  have hdrop : search.stack.drop pos = dep :: search.stack.drop (pos + 1) := by
    rw [List.drop_eq_getElem_cons hlt, hget]
  refine ⟨dep, search.stack.drop (pos + 1), by rw [hdrop], ?_⟩
  refine List.IsChain.append (h.chain.drop pos) (List.isChain_singleton dep) ?_
  intro x hx y hy
  have hlast : (search.stack.drop pos).getLast? = some id := by
    rw [List.getLast?_drop, if_neg (by omega), htop]
  rw [Option.mem_def, hlast] at hx
  rw [List.head?_cons, Option.mem_def] at hy
  cases hx
  cases hy
  exact hedge

/-- The dependencies of a node on the top of the stack, one after the other. -/
theorem foldl_visitDep_spec (visit : T → Search T → Option (List T) × Search T) (id : T)
    {entered : Search T} (htop : entered.stack.getLast? = some id) {deps : List T}
    (hdeps : deps ⊆ (adjacency[id]?).getD [])
    (hvisit : ∀ dep ∈ deps, dep ∈ adjacency.keys → ∀ search, Good adjacency search →
      Calm entered search → search.Fresh dep →
      Moved adjacency search [dep] (visit dep search)) :
    ∀ (done : List T) (acc : Option (List T) × Search T), Moved adjacency entered done acc →
      Moved adjacency entered (done ++ deps.filter (· ∈ adjacency.keys))
        (deps.foldl (visitDep adjacency visit) acc) := by
  induction deps with
  | nil => exact fun done acc h => by simpa using h
  | cons dep rest ih =>
    intro done acc h
    have hrest := ih (fun d hd => hdeps (List.mem_cons_of_mem _ hd))
      (fun d hd => hvisit d (List.mem_cons_of_mem _ hd))
    rw [List.foldl_cons]
    obtain ⟨found, search⟩ := acc
    cases found with
    | some cycle =>
      -- a cycle found is what the fold answers
      have hkeep : ∀ ds : List T,
          ds.foldl (visitDep adjacency visit) (some cycle, search) = (some cycle, search) := by
        intro ds
        induction ds with
        | nil => rfl
        | cons d ds ihds => exact ihds
      have hone : visitDep adjacency visit (some cycle, search) dep = (some cycle, search) := rfl
      rw [hone, hkeep rest]
      exact h
    | none =>
      obtain ⟨hgood, hcalm, hdone⟩ := h
      have hlast : search.stack.getLast? = some id := hcalm.1 ▸ htop
      by_cases hkey : dep ∈ adjacency.keys
      · have hedge : Edge adjacency id dep := ⟨hdeps List.mem_cons_self, hkey⟩
        have hone : Moved adjacency entered (done ++ [dep])
            (visitDep adjacency visit (none, search) dep) := by
          have hblack : search.color[dep]? = some .black →
              Moved adjacency entered (done ++ [dep]) (none, search) := by
            intro hb
            refine ⟨hgood, hcalm, fun d hd => ?_⟩
            rcases List.mem_append.mp hd with hd | hd
            · exact hdone d hd
            · rwa [List.mem_singleton.mp hd]
          have hfresh : search.Fresh dep →
              Moved adjacency entered (done ++ [dep]) (visit dep search) := by
            intro hf
            have hmoved := hvisit dep List.mem_cons_self hkey search hgood hcalm hf
            unfold Moved at hmoved ⊢
            split at hmoved
            · exact hmoved
            · obtain ⟨hgood', hcalm', hdep⟩ := hmoved
              refine ⟨hgood', hcalm.trans hcalm', fun d hd => ?_⟩
              rcases List.mem_append.mp hd with hd | hd
              · exact hcalm'.black (hdone d hd)
              · exact hdep d hd
          unfold visitDep
          dsimp only
          rw [if_pos (contains_iff_mem_keys.mpr hkey)]
          split
          · next pos hgray => exact isCycle_of_gray hgood hgray hlast hedge
          · next hb => exact hblack hb
          · next hgray hb => exact hfresh ⟨fun h => hb h, fun pos h => hgray pos h⟩
        have hafter := hrest (done ++ [dep]) _ hone
        rwa [List.append_assoc, List.singleton_append,
          ← List.filter_cons_of_pos (p := (· ∈ adjacency.keys)) (by simpa using hkey)] at hafter
      · have hone : visitDep adjacency visit (none, search) dep = (none, search) := by
          unfold visitDep
          dsimp only
          rw [if_neg (fun hc => hkey (contains_iff_mem_keys.mp hc))]
        rw [hone, List.filter_cons_of_neg (by simpa using hkey)]
        exact hrest done (none, search) ⟨hgood, hcalm, hdone⟩

/-- **What a visit of a fresh node does**: it finds a cycle, or leaves the node black. -/
theorem visit_spec (fuel : Nat) : ∀ (id : T) (search : Search T), Good adjacency search →
    id ∈ adjacency.keys → search.Fresh id →
    (∀ top, search.stack.getLast? = some top → Edge adjacency top id) →
    adjacency.keys.length < fuel + search.stack.length →
    Moved adjacency search [id] (visit adjacency fuel id search) := by
  induction fuel with
  | zero =>
    intro id search hgood hkey hfresh htop hfuel
    have hle := hgood.length_le
    omega
  | succ fuel ih =>
    intro id search hgood hkey hfresh htop hfuel
    have hlast : (search.stack ++ [id]).getLast? = some id := List.getLast?_concat ..
    have hentered : Good adjacency
        ⟨search.color.insert id (.gray search.stack.length), search.stack ++ [id]⟩ := by
      refine ⟨fun a ha => ?_, fun a pos => ?_, ?_, fun a ha => ?_⟩
      · rw [OrdMap.getElem?_insert_eq] at ha
        split at ha
        · cases ha
        · exact hgood.black a ha
      · show (search.color.insert id (.gray search.stack.length))[a]? = some (.gray pos) ↔
          (search.stack ++ [id])[pos]? = some a
        rw [OrdMap.getElem?_insert_eq, List.getElem?_append]
        by_cases hpos : pos < search.stack.length
        · rw [if_pos hpos, ← hgood.gray]
          split
          · next ha =>
            subst ha
            refine iff_of_false (fun h => ?_) (hfresh.2 pos)
            injection h with h
            injection h with h
            omega
          · rfl
        · rw [if_neg hpos]
          split
          · next ha =>
            subst ha
            constructor
            · intro h
              injection h with h
              injection h with h
              simp [h]
            · intro h
              obtain ⟨hlt, -⟩ := List.getElem?_eq_some_iff.mp h
              rw [List.length_singleton] at hlt
              have hzero : search.stack.length = pos := by omega
              rw [hzero]
          · next ha =>
            refine iff_of_false (fun h => ?_) (fun h => ?_)
            · obtain ⟨hlt, -⟩ := List.getElem?_eq_some_iff.mp ((hgood.gray a pos).mp h)
              exact hpos hlt
            · exact ha (List.mem_singleton.mp (List.mem_of_getElem? h)).symm
      · refine List.IsChain.append hgood.chain (List.isChain_singleton id) ?_
        intro x hx y hy
        rw [List.head?_cons, Option.mem_def] at hy
        cases hy
        exact htop x hx
      · rcases List.mem_append.mp ha with ha | ha
        · exact hgood.keys a ha
        · rwa [List.mem_singleton.mp ha]
    have hfold := foldl_visitDep_spec (visit adjacency fuel) id hlast
      (List.Subset.refl ((adjacency[id]?).getD [])) (by
        intro dep hdep hdepKey inner hinner hcalm hdepFresh
        refine ih dep inner hinner hdepKey hdepFresh ?_ ?_
        · intro top ht
          rw [hcalm.1, hlast] at ht
          cases ht
          exact ⟨hdep, hdepKey⟩
        · rw [hcalm.1, List.length_append, List.length_singleton]
          omega)
      [] (none, _) ⟨hentered, Calm.refl _, fun d hd => absurd hd List.not_mem_nil⟩
    unfold visit
    dsimp only
    generalize ((adjacency[id]?).getD []).foldl (visitDep adjacency (visit adjacency fuel))
      (none, ⟨search.color.insert id (.gray search.stack.length), search.stack ++ [id]⟩) = result
      at hfold ⊢
    obtain ⟨found, after⟩ := result
    cases found with
    | some cycle => exact hfold
    | none =>
      obtain ⟨hafter, hcalm, hdone⟩ := hfold
      -- every dependency is black, so no path from here goes on for ever
      have hacc : Acc (fun b a => Edge adjacency a b) id := by
        refine Acc.intro id fun b hb => hafter.black b (hdone b ?_)
        exact List.mem_filter.mpr ⟨hb.1, decide_eq_true hb.2⟩
      have hstack : after.stack.dropLast = search.stack := by
        rw [hcalm.1]
        exact List.dropLast_concat
      have hcolor : ∀ a : T, a ≠ id → after.color[a]? = search.color[a]? ∨
          search.Fresh a ∧ after.color[a]? = some .black := by
        intro a ha
        have hbefore : (search.color.insert id (Color.gray search.stack.length))[a]? =
            search.color[a]? := by
          rw [OrdMap.getElem?_insert_eq, if_neg (Ne.symm ha)]
        have hof := hcalm.2 a
        simp only [Search.Fresh, hbefore] at hof
        exact hof
      refine ⟨⟨fun a ha => ?_, fun a pos => ?_, ?_, ?_⟩, ⟨hstack, fun a => ?_⟩, fun d hd => ?_⟩
      · rw [OrdMap.getElem?_insert_eq] at ha
        split at ha
        · next he => exact he ▸ hacc
        · exact hafter.black a ha
      · show (after.color.insert id .black)[a]? = some (.gray pos) ↔
          after.stack.dropLast[pos]? = some a
        rw [OrdMap.getElem?_insert_eq, hstack]
        split
        · next he =>
          subst he
          refine iff_of_false (fun h => nomatch h) fun h => ?_
          exact hfresh.2 pos ((hgood.gray _ pos).mpr h)
        · next he =>
          rw [← hgood.gray]
          rcases hcolor a (Ne.symm he) with hsame | ⟨hf, hb⟩
          · rw [hsame]
          · rw [hb]
            exact iff_of_false (fun h => nomatch h) (hf.2 pos)
      · show after.stack.dropLast.IsChain (Edge adjacency)
        rw [hstack]
        exact hgood.chain
      · show ∀ a ∈ after.stack.dropLast, a ∈ adjacency.keys
        rw [hstack]
        exact hgood.keys
      · show (after.color.insert id .black)[a]? = _ ∨ _ ∧
          (after.color.insert id .black)[a]? = some .black
        rw [OrdMap.getElem?_insert_eq]
        split
        · next he => exact .inr ⟨he ▸ hfresh, rfl⟩
        · next he => exact hcolor a (Ne.symm he)
      · rw [List.mem_singleton.mp hd]
        show (after.color.insert id .black)[id]? = some .black
        rw [OrdMap.getElem?_insert_eq, if_pos rfl]

/-- A root visited keeps what the roots before it left, and is black after it. -/
theorem foldl_visitRoot_spec {roots : List T} (hroots : roots ⊆ adjacency.keys) :
    ∀ (start : Search T) (done : List T) (acc : Option (List T) × Search T), start.stack = [] →
      (∀ a ∈ adjacency.keys, ∀ pos, start.color[a]? ≠ some (.gray pos)) →
      (∀ a ∈ adjacency.keys, start.color[a]?.isSome) →
      Moved adjacency start done acc →
      Moved adjacency start (done ++ roots) (roots.foldl (visitRoot adjacency) acc) := by
  induction roots with
  | nil => exact fun start done acc _ _ _ h => by simpa using h
  | cons id rest ih =>
    intro start done acc hstack hgray hsome h
    have hkey : id ∈ adjacency.keys := hroots List.mem_cons_self
    have hrest := ih (fun d hd => hroots (List.mem_cons_of_mem _ hd)) start (done ++ [id])
    rw [List.append_assoc, List.singleton_append] at hrest
    rw [List.foldl_cons]
    refine hrest _ hstack hgray hsome ?_
    obtain ⟨found, search⟩ := acc
    cases found with
    | some cycle => exact h
    | none =>
      obtain ⟨hgood, hcalm, hdone⟩ := h
      have hempty : search.stack = [] := hcalm.1.trans hstack
      unfold visitRoot
      dsimp only
      split
      · next hwhite =>
        have hmoved := visit_spec (adjacency.keys.length + 1) id search hgood hkey
          ⟨by simp [hwhite], by simp [hwhite]⟩ (by simp [hempty]) (by omega)
        unfold Moved at hmoved ⊢
        split at hmoved
        · exact hmoved
        · obtain ⟨hgood', hcalm', hid⟩ := hmoved
          refine ⟨hgood', hcalm.trans hcalm', fun d hd => ?_⟩
          rcases List.mem_append.mp hd with hd | hd
          · exact hcalm'.black (hdone d hd)
          · exact hid d hd
      · next hwhite =>
        -- neither white nor gray
        refine ⟨hgood, hcalm, fun d hd => ?_⟩
        rcases List.mem_append.mp hd with hd | hd
        · exact hdone d hd
        rw [List.mem_singleton.mp hd]
        rcases hcalm.2 id with hsame | ⟨-, hblack⟩
        · rw [hsame] at hwhite ⊢
          obtain ⟨c, hc⟩ := Option.isSome_iff_exists.mp (hsome id hkey)
          rw [hc] at hwhite ⊢
          cases c with
          | white => exact absurd rfl hwhite
          | gray pos => exact absurd hc (hgray id hkey pos)
          | black => rfl
        · exact hblack

/-- What no path goes on from for ever does not lead to itself. -/
theorem not_self_of_acc {r : T → T → Prop} {a : T} (h : Acc r a) : ¬ r a a := by
  induction h with
  | intro a _ ih => exact fun hself => ih a hself hself

/-- The whole search is a move: it ends with a cycle, or with every node black. -/
theorem findCycle_moved (adjacency : OrdMap T (List T)) :
    ∃ start search, Moved adjacency start adjacency.keys (findCycle adjacency, search) := by
  let start : Search T := ⟨adjacency.map fun _ _ => .white, []⟩
  have hcolor : ∀ a : T, start.color[a]? = (adjacency[a]?).map fun _ => Color.white :=
    fun a => ExtTreeMap.getElem?_map
  have hgood : Good adjacency start := by
    refine ⟨fun a ha => ?_, fun a pos => ?_, List.isChain_nil,
      fun a ha => absurd ha List.not_mem_nil⟩
    · rw [hcolor] at ha
      cases hget : adjacency[a]? <;> simp [hget] at ha
    · rw [hcolor]
      cases hget : adjacency[a]? <;> simp [start]
  have hspec := foldl_visitRoot_spec (List.Subset.refl adjacency.keys) start [] (none, start) rfl
    (fun a ha pos => by rw [hcolor]; cases adjacency[a]? <;> simp)
    (fun a ha => by
      rw [hcolor, Option.isSome_map]
      rwa [ExtTreeMap.mem_keys, ExtTreeMap.mem_iff_isSome_getElem?] at ha)
    ⟨hgood, Calm.refl start, fun d hd => absurd hd List.not_mem_nil⟩
  exact ⟨start, _, hspec⟩

/-- **Soundness**: what is found is a cycle. -/
theorem isCycle_of_findCycle {cycle : List T} (h : findCycle adjacency = some cycle) :
    IsCycle adjacency cycle := by
  obtain ⟨start, search, hmoved⟩ := findCycle_moved adjacency
  rw [h] at hmoved
  exact hmoved

/-- **Completeness**: where nothing is found, no node reaches itself. -/
theorem acyclic_of_findCycle (h : findCycle adjacency = none) (a : T) :
    ¬ TransGen (Edge adjacency) a a := by
  obtain ⟨start, search, hmoved⟩ := findCycle_moved adjacency
  rw [h] at hmoved
  obtain ⟨hafter, -, hblack⟩ := hmoved
  intro hcycle
  obtain ⟨b, hab, -⟩ := TransGen.head'_iff.mp hcycle
  have hacc := (hafter.black a (hblack a (mem_keys_of_edge hab))).transGen
  exact not_self_of_acc hacc (Relation.transGen_swap.mpr hcycle)

/-- **A cycle is found exactly where the graph has one.** -/
theorem findCycle_isSome_iff :
    (findCycle adjacency).isSome ↔ ∃ a, TransGen (Edge adjacency) a a := by
  cases hfound : findCycle adjacency with
  | some cycle => exact iff_of_true rfl (isCycle_of_findCycle hfound).transGen
  | none =>
    refine iff_of_false (by simp) ?_
    rintro ⟨a, hcycle⟩
    exact acyclic_of_findCycle hfound a hcycle

end

/-- **The search is sound and complete**: it answers none exactly where no node of the graph reaches
    itself over known nodes, and what it answers is a path of the graph that closes on its first
    node. -/
theorem findCycle_spec (adjacency : OrdMap T (List T)) :
    (findCycle adjacency = none ↔ ∀ a, ¬ TransGen (Edge adjacency) a a) ∧
      ∀ cycle, findCycle adjacency = some cycle →
        ∃ a path, cycle = a :: path ++ [a] ∧ cycle.IsChain (Edge adjacency) := by
  refine ⟨⟨acyclic_of_findCycle, fun h => ?_⟩, fun cycle h => isCycle_of_findCycle h⟩
  cases hfound : findCycle adjacency with
  | none => rfl
  | some cycle =>
    obtain ⟨a, hcycle⟩ := (isCycle_of_findCycle hfound).transGen
    exact absurd hcycle (h a)

/-- Two nodes that wait for each other, one of them twice, and one that waits for a stranger. -/
def twoInARing : OrdMap String (List String) :=
  Std.ExtTreeMap.ofList [("a", ["b"]), ("b", ["missing", "a", "a"]), ("c", ["missing"])]

/-- The ring is found, and so is none where it is cut. -/
theorem findCycle_spec_ring :
    (∃ a path, ["a", "b", "a"] = a :: path ++ [a] ∧
      ["a", "b", "a"].IsChain (Edge twoInARing)) ∧
    ∀ a, ¬ TransGen (Edge (twoInARing.erase "a")) a a :=
  ⟨(findCycle_spec twoInARing).2 _ (by decide +kernel),
    (findCycle_spec (twoInARing.erase "a")).1.mp (by decide +kernel)⟩

end Yunta.Graph
