/-
  What a lookup in a commit's tree reaches, and that resolution finds it.

  1. **Lookup** — `Walk` is the file system's: it follows every link on its way, however many, and
     looks nothing up under a file.  `Lookup` is a walk each of whose links resolves inside the
     checkout, off its root, through forty links at most.

  2. **Resolution** — `resolve` walks as the file system does (`found_of_walk`), so a link a lookup
     follows is one of the `resolved`, with its target (`exists_loaded`).

  3. **Unlinked paths** — no link stands at or above what a link resolves to (`standing_of_resolved`).
-/
import Yunta.Scope.Links

set_option linter.unusedVariables false

namespace Yunta

/-! ## Lookup -/

/-- A lookup of `ahead` from `at_`, with how many links it follows and what it reaches. -/
inductive Walk (commit : CommitTree) : Nat → Path → List String → Path → Prop
  | arrives {at_ : Path} : Walk commit 0 at_ [] at_
  | stays {hops : Nat} {at_ : Path} {ahead : List String} {reached : Path} :
      at_ ∉ commit.files → Walk commit hops at_ ahead reached →
      Walk commit hops at_ ("." :: ahead) reached
  | climbs {hops : Nat} {at_ : Path} {ahead : List String} {reached : Path} :
      at_ ∉ commit.files → at_ ≠ [] → Walk commit hops at_.dropLast ahead reached →
      Walk commit hops at_ (".." :: ahead) reached
  | enters {hops : Nat} {at_ : Path} {name : String} {ahead : List String} {reached : Path} :
      at_ ∉ commit.files → name ≠ "." → name ≠ ".." → commit.linkAt (at_ ++ [name]) = none →
      Walk commit hops (at_ ++ [name]) ahead reached → Walk commit hops at_ (name :: ahead) reached
  | follows {hops : Nat} {at_ : Path} {name text : String} {names ahead : List String}
      {reached : Path} :
      at_ ∉ commit.files → name ≠ "." → name ≠ ".." →
      commit.linkAt (at_ ++ [name]) = some text → namesOf text = some names →
      Walk commit hops at_ (names ++ ahead) reached →
      Walk commit (hops + 1) at_ (name :: ahead) reached

/-- A lookup of a path below `at_` by names alone, each link of which resolves inside the checkout,
    off its root, through `HOPS` links at most. -/
inductive Lookup (commit : CommitTree) : Path → List String → Path → Prop
  | arrives {at_ : Path} : Lookup commit at_ [] at_
  | enters {at_ : Path} {name : String} {ahead : List String} {reached : Path} :
      at_ ∉ commit.files → IsName name → commit.linkAt (at_ ++ [name]) = none →
      Lookup commit (at_ ++ [name]) ahead reached → Lookup commit at_ (name :: ahead) reached
  | follows {at_ : Path} {name text : String} {names ahead : List String} {hops : Nat}
      {target reached : Path} :
      at_ ∉ commit.files → IsName name →
      commit.linkAt (at_ ++ [name]) = some text → namesOf text = some names →
      Walk commit hops at_ names target → hops ≤ HOPS → target ≠ [] →
      Lookup commit target ahead reached → Lookup commit at_ (name :: ahead) reached

section
variable {commit : CommitTree} {hops more left : Nat} {at_ reached target : Path}
  {ahead names : List String} {passed : List Path}

/-! ## Resolution -/

/-- Where the loop goes on behind a link, with the links it may still follow. -/
def jump (links : Path → Option String) :
    Nat → Path → List String → List Path → Option (Path × List Path)
  | 0 => fun _ _ _ => none
  | left + 1 => walk links left

theorem walk_eq (links : Path → Option String) (left : Nat) :
    walk links left = steps links (jump links left) := by
  cases left <;> rfl

/-- **Resolution walks as the file system does**, within the links it may follow. -/
theorem found_of_walk (h : Walk commit hops at_ ahead reached) (hle : hops ≤ left) :
    ∀ passed, ∃ way, walk commit.linkAt left at_ ahead passed = some (reached, way) := by
  induction h generalizing left with
  | arrives =>
    intro passed
    exact ⟨passed, by rw [walk_eq, steps]⟩
  | stays _ _ ih =>
    intro passed
    obtain ⟨way, hway⟩ := ih hle passed
    rw [walk_eq] at hway ⊢
    exact ⟨way, by rw [steps, if_pos rfl, hway]⟩
  | climbs _ hne _ ih =>
    intro passed
    obtain ⟨way, hway⟩ := ih hle passed
    rw [walk_eq] at hway ⊢
    exact ⟨way, by rw [steps, if_neg (by decide), if_pos rfl, if_neg hne, hway]⟩
  | @enters _ at_ name ahead _ _ hdot hdots hlink _ ih =>
    intro passed
    obtain ⟨way, hway⟩ := ih hle (if ahead = [] then passed else passed ++ [at_ ++ [name]])
    rw [walk_eq] at hway ⊢
    refine ⟨way, ?_⟩
    rw [steps, if_neg hdot, if_neg hdots, hlink]
    exact hway
  | @follows hops at_ name text names ahead _ _ hdot hdots hlink hnames _ ih =>
    intro passed
    obtain ⟨left, rfl⟩ : ∃ l, left = l + 1 := ⟨left - 1, by omega⟩
    obtain ⟨way, hway⟩ := ih (show _ ≤ left by omega) (passed ++ [at_ ++ [name]])
    refine ⟨way, ?_⟩
    rw [walk_eq, steps, if_neg hdot, if_neg hdots, hlink]
    show (namesOf text).bind _ = _
    rw [hnames]
    exact hway

theorem mem_of_linkAt {path : Path} {text : String} (h : commit.linkAt path = some text) :
    (path, text) ∈ commit.links := by
  obtain ⟨link, hlink, rfl⟩ := Option.map_eq_some_iff.mp h
  have hpath : link.1 = path := by simpa using List.find?_some hlink
  rw [← hpath]
  exact List.mem_of_find?_eq_some hlink

/-- **A link a lookup follows is one of the resolved, with its target.** -/
theorem exists_loaded {name text : String} (hlink : commit.linkAt (at_ ++ [name]) = some text)
    (hnames : namesOf text = some names) (hwalk : Walk commit hops at_ names target)
    (hle : hops ≤ HOPS) (hne : target ≠ []) :
    ∃ link ∈ resolved commit, link.path = at_ ++ [name] ∧ link.target = target ∧
      (link.tree = false → target ∈ commit.files) := by
  obtain ⟨way, hway⟩ := found_of_walk hwalk hle []
  have hresolve : resolve commit.linkAt (at_ ++ [name]) text =
      some (target, Saturate.addAll [] (way.filter (· ≠ target))) := by
    rw [resolve, hnames, Option.bind_some, List.dropLast_concat, hway, Option.bind_some]
    exact if_neg hne
  refine ⟨⟨at_ ++ [name], target, Saturate.addAll [] (way.filter (· ≠ target)),
    !commit.files.contains target⟩, List.mem_filterMap.mpr ⟨_, mem_of_linkAt hlink, ?_⟩,
    rfl, rfl, ?_⟩
  · exact Option.map_eq_some_iff.mpr ⟨_, hresolve, rfl⟩
  · intro htree
    simpa using htree

/-! ## Paths no link stands over -/

/-- A place the lookup of a path stands at: no link stands at it or above it. -/
structure Unlinked (commit : CommitTree) (path : Path) : Prop where
  named : ∀ name ∈ path, IsName name
  real : ∀ link ∈ commit.links, ¬ link.1 <+: path

theorem standing_nil (commit : CommitTree) : Unlinked commit [] where
  named name hname := absurd hname List.not_mem_nil
  real link hlink hstart := by
    have hpath := commit.paths link.1 (List.mem_append_left _ (List.mem_map_of_mem hlink))
    exact hpath.ne_nil (List.prefix_nil.mp hstart)

theorem Unlinked.dropLast (h : Unlinked commit at_) : Unlinked commit at_.dropLast where
  named name hname := h.named name (List.mem_of_mem_dropLast hname)
  real link hlink hstart := h.real link hlink (hstart.trans (List.dropLast_prefix at_))

theorem Unlinked.enter (h : Unlinked commit at_) {name : String} (hname : IsName name)
    (hlink : commit.linkAt (at_ ++ [name]) = none) : Unlinked commit (at_ ++ [name]) where
  named other hother := by
    rcases List.mem_append.mp hother with hother | hother
    · exact h.named other hother
    · rw [List.mem_singleton.mp hother]
      exact hname
  real link hmem hstart := by
    rcases List.prefix_concat_iff.mp hstart with heq | hstart
    · rw [CommitTree.linkAt, Option.map_eq_none_iff, List.find?_eq_none] at hlink
      exact hlink link hmem (by simpa using heq)
    · exact h.real link hmem hstart

/-- What a text walks through is never empty and holds no `/`. -/
theorem namesOf_spec {text : String} (h : namesOf text = some names) :
    ∀ name ∈ names, name ≠ "" ∧ '/' ∉ name.toList := by
  intro name hname
  rw [← Option.some.inj (Option.ite_none_right_eq_some.mp h).2] at hname
  obtain ⟨hpart, hne⟩ := List.mem_filter.mp hname
  obtain ⟨part, hmem, rfl⟩ := List.mem_map.mp hpart
  rw [String.toList_ofList]
  exact ⟨by simpa using hne, Text.not_mem_of_mem_splitOn hmem⟩

/-- One stretch of the walk leaves it standing, when what stands behind a link does. -/
theorem standing_of_steps {go : Path → List String → List Path → Option (Path × List Path)}
    {way : List Path} (h : Unlinked commit at_)
    (hahead : ∀ name ∈ ahead, name ≠ "" ∧ '/' ∉ name.toList)
    (hgo : ∀ at_ ahead passed reached way, Unlinked commit at_ →
      (∀ name ∈ ahead, name ≠ "" ∧ '/' ∉ name.toList) →
      go at_ ahead passed = some (reached, way) → Unlinked commit reached)
    (hsteps : steps commit.linkAt go at_ ahead passed = some (reached, way)) :
    Unlinked commit reached := by
  induction ahead generalizing at_ passed with
  | nil =>
    cases hsteps
    exact h
  | cons name ahead ih =>
    obtain ⟨hname, hahead⟩ := List.forall_mem_cons.mp hahead
    rw [steps] at hsteps
    split at hsteps
    · exact ih h hahead hsteps
    next hdot =>
    split at hsteps
    · split at hsteps
      · cases hsteps
      · exact ih h.dropLast hahead hsteps
    next hdots =>
    cases hlink : commit.linkAt (at_ ++ [name]) with
    | none =>
      rw [hlink] at hsteps
      exact ih (h.enter ⟨hname.1, hdot, hdots, hname.2⟩ hlink) hahead hsteps
    | some text =>
      rw [hlink] at hsteps
      obtain ⟨names, hnames, hjump⟩ := Option.bind_eq_some_iff.mp hsteps
      refine hgo _ _ _ _ _ h ?_ hjump
      intro other hother
      rcases List.mem_append.mp hother with hother | hother
      · exact namesOf_spec hnames other hother
      · exact hahead other hother

theorem standing_of_walk {way : List Path} (h : Unlinked commit at_)
    (hahead : ∀ name ∈ ahead, name ≠ "" ∧ '/' ∉ name.toList)
    (hwalk : walk commit.linkAt left at_ ahead passed = some (reached, way)) :
    Unlinked commit reached := by
  induction left generalizing at_ ahead passed reached way with
  | zero =>
    refine standing_of_steps h hahead ?_ hwalk
    intro at_ ahead passed reached way _ _ hnone
    cases hnone
  | succ left ih =>
    exact standing_of_steps h hahead (fun _ _ _ _ _ h hahead hgo => ih h hahead hgo) hwalk

/-- What a resolved link is of the commit. -/
theorem mem_resolved {link : LoadedLink} (h : link ∈ resolved commit) :
    ∃ text, (link.path, text) ∈ commit.links ∧
      ∃ names, namesOf text = some names ∧ link.target ≠ [] ∧
        ∃ way, walk commit.linkAt HOPS link.path.dropLast names [] = some (link.target, way) := by
  obtain ⟨⟨path, text⟩, hlink, hmap⟩ := List.mem_filterMap.mp h
  obtain ⟨⟨target, passed⟩, hresolve, rfl⟩ := Option.map_eq_some_iff.mp hmap
  obtain ⟨names, hnames, hbind⟩ := Option.bind_eq_some_iff.mp hresolve
  obtain ⟨⟨reached, way⟩, hwalk, hif⟩ := Option.bind_eq_some_iff.mp hbind
  obtain ⟨hne, heq⟩ := Option.ite_none_left_eq_some.mp hif
  obtain ⟨rfl, -⟩ := Prod.mk.inj (Option.some.inj heq)
  exact ⟨text, hlink, names, hnames, hne, way, hwalk⟩

theorem isPath_of_link {link : Path × String} (h : link ∈ commit.links) : IsPath link.1 :=
  commit.paths link.1 (List.mem_append_left _ (List.mem_map_of_mem h))

/-- No link stands above a link. -/
theorem standing_of_link {link : Path × String} (h : link ∈ commit.links) :
    Unlinked commit link.1.dropLast where
  named name hname := (isPath_of_link h).named name (List.mem_of_mem_dropLast hname)
  real other hother hstart := by
    have heq := commit.below other hother link.1
      (List.mem_append_left _ (List.mem_map_of_mem h)) (hstart.trans (List.dropLast_prefix _))
    rw [← heq] at hstart
    have hlen := hstart.length_le
    rw [List.length_dropLast] at hlen
    exact (isPath_of_link h).ne_nil (List.length_eq_zero_iff.mp (by omega))

/-- **No link stands at or above what a link resolves to.** -/
theorem standing_of_resolved {link : LoadedLink} (h : link ∈ resolved commit) :
    IsPath link.path ∧ IsPath link.target ∧ Unlinked commit link.target := by
  obtain ⟨text, hlink, names, hnames, hne, way, hwalk⟩ := mem_resolved h
  have hstands : Unlinked commit link.target :=
    standing_of_walk (standing_of_link hlink) (namesOf_spec hnames) hwalk
  exact ⟨isPath_of_link hlink, ⟨hne, hstands.named⟩, hstands⟩

end

end Yunta
