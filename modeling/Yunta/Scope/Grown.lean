/-
  No way round the protection of what a CLI loads, through the links of a run's base commit.

  1. **Shapes** — `HeldGlob` is what a glob a CLI loads by spells: a tree, a path or a name.  Over a
     tree there stands a link only at the tree itself, or at `.agents` over its `skills`
     (`HeldTree.over`), so what a link carries has a shape again, and there is only so much of it
     (`carried_carriable`): growth ends.

  2. **One link** — where what a CLI loads holds the rest of a lookup, it holds it from behind the
     next link too (`covered_of_follows`), if the text of the tree the link stands at says which
     directory it is.  A glob spells a directory with glob syntax in its name in classes, and those
     `wholeTree` does not read: `SkillsReadable` leaves out the one such tree a link may stand at.

  3. **A whole lookup** — so every path a lookup reaches is held (`following_holds`).
-/
import Yunta.Scope.Lookup

set_option linter.unusedVariables false

namespace Yunta

/-! ## Shapes -/

/-- A directory a grown set holds the tree of. -/
inductive HeldTree (commit : CommitTree) : Path → Prop
  | config {dir : Path} : dir ∈ [[".claude"], [".codex"], [".agents", "skills"]] →
      HeldTree commit dir
  | target {dir : Path} : IsPath dir → Unlinked commit dir → HeldTree commit dir
  | skills {link : LoadedLink} : link ∈ resolved commit → link.path = [".agents"] →
      HeldTree commit (link.target ++ ["skills"])

/-- What a glob of what a CLI loads spells. -/
inductive HeldGlob (commit : CommitTree) : ScopeGlob → Prop
  | tree {dir : Path} : HeldTree commit dir → HeldGlob commit (under (joined dir))
  | path {file : Path} : IsPath file →
      (∀ link ∈ resolved commit, link.path <+: file → link.path = file) →
      HeldGlob commit (exact (joined file))
  | name {glob : ScopeGlob} : glob ∈ instructionGlobs → HeldGlob commit glob

/-- No link stands at the `skills` of what `.agents` links to, where the text of that directory holds
    glob syntax. -/
def SkillsReadable (commit : CommitTree) : Prop :=
  ∀ link ∈ resolved commit, link.path = [".agents"] → PlainText (joined link.target) ∨
    ∀ other ∈ resolved commit, other.path ≠ link.target ++ ["skills"]

instance (commit : CommitTree) : Decidable (SkillsReadable commit) :=
  inferInstanceAs (Decidable (∀ link ∈ resolved commit, _ → _ ∨ _))

section
variable {commit : CommitTree} {link : LoadedLink} {dir rest : Path} {glob : ScopeGlob}

theorem isName_skills : ∀ name ∈ ["skills"], IsName name := by decide +kernel

theorem plain_skills :
    ∀ c ∈ '/' :: (joined ["skills"]).toList, opensOrCloses c = false ∧ c ≠ '*' ∧ c ≠ '\\' := by
  have htext : '/' :: (joined ["skills"]).toList = "/skills".toList := by decide +kernel
  have hplain : PlainText "/skills" := by decide +kernel
  rw [htext]
  exact hplain

theorem HeldTree.isPath (h : HeldTree commit dir) : IsPath dir := by
  cases h with
  | config hmem =>
    revert dir
    decide +kernel
  | target hdir _ => exact hdir
  | skills hlink _ => exact (standing_of_resolved hlink).2.1.append isName_skills

theorem not_over_standing (hdir : Unlinked commit dir) (hlink : link ∈ resolved commit) :
    ¬ link.path <+: dir := by
  obtain ⟨text, hmem, -⟩ := mem_resolved hlink
  exact hdir.real _ hmem

/-- A link at or above the `skills` of what `.agents` links to stands at it. -/
theorem path_over_skills {agents : LoadedLink} (hagents : agents ∈ resolved commit)
    (hlink : link ∈ resolved commit) (hover : link.path <+: agents.target ++ ["skills"]) :
    link.path = agents.target ++ ["skills"] := by
  rcases List.prefix_concat_iff.mp hover with heq | hover
  · exact heq
  · exact absurd hover (not_over_standing (standing_of_resolved hagents).2.2 hlink)

/-- **A link over a held tree stands at it, or at `.agents` over its `skills`.** -/
theorem HeldTree.over (h : HeldTree commit dir) (hlink : link ∈ resolved commit)
    (hover : dir = link.path ++ rest) :
    rest = [] ∨ link.path = [".agents"] ∧ rest = ["skills"] := by
  have hne := (standing_of_resolved hlink).1.ne_nil
  cases h with
  | config hmem =>
    simp only [List.mem_cons, List.not_mem_nil, or_false] at hmem
    rcases hmem with rfl | rfl | rfl
    all_goals simp [List.cons_eq_append_iff, hne] at hover
    · exact .inl hover.2
    · exact .inl hover.2
    · obtain ⟨names, hpath, ⟨rfl, hrest⟩ | ⟨-, hrest⟩⟩ := hover
      · exact .inr ⟨hpath, hrest⟩
      · exact .inl hrest
  | target _ hstands => exact absurd ⟨rest, hover.symm⟩ (not_over_standing hstands hlink)
  | skills hagents _ =>
    have hpath := path_over_skills hagents hlink ⟨rest, hover.symm⟩
    rw [← hpath] at hover
    exact .inl (List.self_eq_append_right.mp hover)

/-- The text of a held tree a link stands over says which directory it is. -/
theorem HeldTree.plain (h : HeldTree commit dir) (hread : SkillsReadable commit)
    (hlink : link ∈ resolved commit) (hover : link.path <+: dir) : PlainText (joined dir) := by
  cases h with
  | config hmem =>
    clear hover
    revert dir
    decide +kernel
  | target _ hstands => exact absurd hover (not_over_standing hstands hlink)
  | @skills agents hagents hpath =>
    rcases hread agents hagents hpath with hplain | hnone
    · intro c hc
      rw [joined_append (standing_of_resolved hagents).2.1.ne_nil (List.cons_ne_nil _ _)] at hc
      rcases List.mem_append.mp hc with hc | hc
      · exact hplain c hc
      · exact plain_skills c hc
    · exact absurd (path_over_skills hagents hlink hover) (hnone link hlink)

/-- What each CLI loads as its own configuration has a shape. -/
theorem heldGlob_config (hmem : glob ∈ agentConfigGlobs) : HeldGlob commit glob := by
  simp only [agentConfigGlobs, List.mem_cons, List.not_mem_nil, or_false] at hmem
  rcases hmem with rfl | rfl | rfl | rfl
  · rw [show (".claude/**" : ScopeGlob) = under (joined [".claude"]) by decide +kernel]
    exact .tree (.config (by decide))
  · rw [show (".mcp.json" : ScopeGlob) = exact (joined [".mcp.json"]) by decide +kernel]
    refine .path (by decide +kernel) fun link hlink hover => ?_
    have hover : link.path <+: [] ++ [".mcp.json"] := hover
    rcases List.prefix_concat_iff.mp hover with heq | hnil
    · exact heq
    · exact absurd (List.prefix_nil.mp hnil) (standing_of_resolved hlink).1.ne_nil
  · rw [show (".codex/**" : ScopeGlob) = under (joined [".codex"]) by decide +kernel]
    exact .tree (.config (by decide))
  · rw [show (".agents/skills/**" : ScopeGlob) = under (joined [".agents", "skills"])
      by decide +kernel]
    exact .tree (.config (by decide))

/-- The whole tree of a shape is a held one. -/
theorem HeldGlob.wholeTree {tree : String} (h : HeldGlob commit glob)
    (htree : wholeTree glob = some tree) :
    ∃ dir, HeldTree commit dir ∧ tree = joined dir ∧ componentsOf tree = dir := by
  cases h with
  | @tree dir hdir =>
    have hne : joined dir ≠ "" := fun h => joined_ne_nil hdir.isPath (by rw [h]; rfl)
    obtain ⟨-, rfl⟩ := (wholeTree_under hne).mp htree
    exact ⟨dir, hdir, rfl, componentsOf_joined hdir.isPath.ne_nil hdir.isPath.steps⟩
  | path _ _ =>
    rw [wholeTree_exact] at htree
    cases htree
  | name hmem =>
    simp only [instructionGlobs, List.mem_cons, List.not_mem_nil, or_false] at hmem
    rcases hmem with rfl | rfl
    · cases (show Yunta.wholeTree "**/AGENTS.md" = none by decide +kernel).symm.trans htree
    · cases (show Yunta.wholeTree "**/CLAUDE.md" = none by decide +kernel).symm.trans htree

end

/-! ## What a link carries -/

section
variable {builds : List ScopeGlob → Bool} {selects : ScopeGlob → String → Bool}
  {commit : CommitTree} {set : Protected builds} {link : LoadedLink} {entry new : Entry}

theorem stripPath_eq_some {path above rest : Path} :
    stripPath path above = some rest ↔ path = above ++ rest := by
  rw [stripPath, Option.ite_none_right_eq_some, List.isPrefixOf_iff_prefix]
  constructor
  · rintro ⟨⟨tail, rfl⟩, hdrop⟩
    rw [Option.some.injEq, List.drop_left] at hdrop
    rw [hdrop]
  · rintro rfl
    exact ⟨List.prefix_append _ _, by rw [List.drop_left]⟩

/-- What a link at a held path carries, all under one reason a link carries on. -/
theorem carriedHolding_cases (set : Protected builds) (selects : ScopeGlob → String → Bool)
    (link : LoadedLink) : set.carriedHolding selects link = [] ∨
    ∃ reason, reason.followsLinks = true ∧ set.carriedHolding selects link =
      ⟨reason, if link.tree then under (joined link.target) else exact (joined link.target),
        false⟩ ::
      (link.passed ++ if link.tree then [link.target] else []).map (Entry.passed reason) := by
  unfold Protected.carriedHolding
  split
  · next reason hreason =>
    refine .inr ⟨reason, ?_, rfl⟩
    obtain ⟨entry, hentry, rfl⟩ := List.mem_map.mp (List.argmin_mem hreason)
    have hloads := (List.mem_filter.mp (List.mem_filter.mp hentry).1).2
    exact (Bool.and_eq_true_iff.mp hloads).1
  · exact .inl rfl

/-- A link at a path of what a CLI loads carries something. -/
theorem carriedHolding_ne_nil (hentry : entry ∈ set.entries) (hloads : entry.loads = true)
    (hselects : selects entry.glob (joined link.path) = true) :
    set.carriedHolding selects link ≠ [] := by
  unfold Protected.carriedHolding
  split
  · exact List.cons_ne_nil _ _
  · next hnone =>
    rw [List.argmin_eq_none, List.map_eq_nil_iff, List.filter_eq_nil_iff] at hnone
    exact absurd hselects (hnone entry (List.mem_filter.mpr ⟨hentry, hloads⟩))

theorem mem_carriedAbove : new ∈ Protected.carriedAbove link entry ↔
    ∃ tree rest, wholeTree entry.glob = some tree ∧ componentsOf tree = link.path ++ rest ∧
      (new = ⟨entry.reason, under (joined (link.target ++ rest)), false⟩ ∨
        ∃ step ∈ link.passed ++ wayDown link.target rest, new = Entry.passed entry.reason step) := by
  unfold Protected.carriedAbove
  split
  · next rest hrest =>
    obtain ⟨tree, htree, hstrip⟩ := Option.bind_eq_some_iff.mp hrest
    rw [stripPath_eq_some] at hstrip
    rw [List.mem_cons, List.mem_map]
    constructor
    · rintro (rfl | ⟨step, hstep, rfl⟩)
      · exact ⟨tree, rest, htree, hstrip, .inl rfl⟩
      · exact ⟨tree, rest, htree, hstrip, .inr ⟨step, hstep, rfl⟩⟩
    · rintro ⟨other, more, hother, hmore, hnew⟩
      cases htree.symm.trans hother
      cases List.append_cancel_left (hstrip.symm.trans hmore)
      rcases hnew with rfl | ⟨step, hstep, rfl⟩
      · exact .inl rfl
      · exact .inr ⟨step, hstep, rfl⟩
  · next hnone =>
    constructor
    · exact fun h => absurd h List.not_mem_nil
    · rintro ⟨tree, rest, htree, hstrip, -⟩
      rw [htree, Option.bind_some, stripPath_eq_some.mpr hstrip] at hnone
      cases hnone

/-- All a link can carry under a reason. -/
def carriable (reason : Protection) (link : LoadedLink) : List Entry :=
  [⟨reason, under (joined link.target), false⟩, ⟨reason, exact (joined link.target), false⟩] ++
    (if link.path = [".agents"] then
      [⟨reason, under (joined (link.target ++ ["skills"])), false⟩] else []) ++
    (link.passed ++ wayDown link.target ["skills"]).map (Entry.passed reason)

/-- All the links of a commit can carry. -/
def allCarriable (links : List LoadedLink) : List Entry :=
  [Protection.agentConfig, .agentInstructions].flatMap fun reason =>
    links.flatMap (carriable reason)

theorem mem_wayDown {target rest step : Path} :
    step ∈ wayDown target rest ↔ ∃ front, front <+: rest ∧ target ++ front = step := by
  simp [wayDown, List.mem_inits]

theorem mem_carriable_passed {reason : Protection} {step : Path}
    (h : step ∈ link.passed ++ wayDown link.target ["skills"]) :
    Entry.passed reason step ∈ carriable reason link :=
  List.mem_append_right _ (List.mem_map_of_mem h)

theorem mem_allCarriable {links : List LoadedLink} {reason : Protection} (hlink : link ∈ links)
    (hreason : reason.followsLinks = true) (hnew : new ∈ carriable reason link) :
    new ∈ allCarriable links := by
  refine List.mem_flatMap.mpr ⟨reason, ?_, List.mem_flatMap.mpr ⟨link, hlink, hnew⟩⟩
  cases reason <;> simp_all [Protection.followsLinks]

/-- **What a link carries is carriable**, where the globs that hold it have a shape. -/
theorem carried_carriable
    (hheld : ∀ entry ∈ set.entries, entry.loads = true → HeldGlob commit entry.glob)
    (hlink : link ∈ resolved commit) (hnew : new ∈ set.carried selects link) :
    new ∈ allCarriable (resolved commit) := by
  rcases List.mem_append.mp hnew with hnew | hnew
  · rcases carriedHolding_cases set selects link with
      hnil | ⟨reason, hreason, hcarried⟩
    · rw [hnil] at hnew
      exact absurd hnew List.not_mem_nil
    · rw [hcarried] at hnew
      refine mem_allCarriable hlink hreason ?_
      rcases List.mem_cons.mp hnew with rfl | hnew
      · cases link.tree <;> simp [carriable]
      · obtain ⟨step, hstep, rfl⟩ := List.mem_map.mp hnew
        refine mem_carriable_passed ?_
        rcases List.mem_append.mp hstep with hstep | hstep
        · exact List.mem_append_left _ hstep
        · have htarget : step = link.target := by
            cases htree : link.tree <;> simp_all
          exact List.mem_append_right _ (mem_wayDown.mpr ⟨[], List.nil_prefix, by simp [htarget]⟩)
  · obtain ⟨entry, hentry, hnew⟩ := List.mem_flatMap.mp hnew
    obtain ⟨hmem, hloads⟩ := List.mem_filter.mp hentry
    obtain ⟨tree, rest, htree, hover, hnew⟩ := mem_carriedAbove.mp hnew
    obtain ⟨dir, hdir, -, hnames⟩ := (hheld entry hmem hloads).wholeTree htree
    have hrest := hdir.over hlink (hnames.symm.trans hover)
    refine mem_allCarriable hlink (Bool.and_eq_true_iff.mp hloads).1 ?_
    rcases hnew with rfl | ⟨step, hstep, rfl⟩
    · rcases hrest with rfl | ⟨hpath, rfl⟩
      · simp [carriable]
      · simp [carriable, hpath]
    · refine mem_carriable_passed ?_
      rcases List.mem_append.mp hstep with hstep | hstep
      · exact List.mem_append_left _ hstep
      · obtain ⟨front, hfront, rfl⟩ := mem_wayDown.mp hstep
        refine List.mem_append_right _ (mem_wayDown.mpr ⟨front, hfront.trans ?_, rfl⟩)
        rcases hrest with rfl | ⟨-, rfl⟩
        · exact List.nil_prefix
        · exact List.prefix_refl _

/-- **And has a shape again.** -/
theorem heldGlob_carriable (hnew : new ∈ allCarriable (resolved commit))
    (hloads : new.loads = true) : HeldGlob commit new.glob := by
  obtain ⟨reason, -, hnew⟩ := List.mem_flatMap.mp hnew
  obtain ⟨link, hlink, hnew⟩ := List.mem_flatMap.mp hnew
  obtain ⟨-, htarget, hstands⟩ := standing_of_resolved hlink
  rcases List.mem_append.mp hnew with hnew | hnew
  · rcases List.mem_append.mp hnew with hnew | hnew
    · simp only [List.mem_cons, List.not_mem_nil, or_false] at hnew
      rcases hnew with rfl | rfl
      · exact .tree (.target htarget hstands)
      · exact .path htarget fun other hother hover =>
          absurd hover (not_over_standing hstands hother)
    · split at hnew
      · next hpath =>
        rw [List.mem_singleton.mp hnew]
        exact .tree (.skills hlink hpath)
      · exact absurd hnew List.not_mem_nil
  · obtain ⟨step, -, rfl⟩ := List.mem_map.mp hnew
    simp [Entry.loads, Entry.passed] at hloads

end

/-! ## Growth -/

section
variable {builds : List ScopeGlob → Bool} {selects : ScopeGlob → String → Bool}
  {commit : CommitTree} {set out : Protected builds} {fixed : List Entry} {rounds : Nat}

/-- What every set on the way to the grown one is. -/
structure Growing (commit : CommitTree) (fixed : List Entry) (set : Protected builds) : Prop where
  /-- It holds what the first set held. -/
  kept : ∀ entry ∈ fixed, entry ∈ set.entries
  /-- The globs a CLI loads by have a shape. -/
  held : ∀ entry ∈ set.entries, entry.loads = true → HeldGlob commit entry.glob
  /-- Nothing is granted. -/
  granted : set.granted = []

theorem carriedRound_eq (links : List LoadedLink) : set.carriedRound selects links =
    Saturate.addAll set.entries (links.flatMap (set.carried selects)) := by
  rw [Saturate.addAll, List.foldl_flatMap]
  rfl

theorem entries_of_ofEntries {entries : List Entry}
    (h : Protected.ofEntries builds entries = some set) :
    set.entries = entries ∧ set.granted = [] := by
  unfold Protected.ofEntries at h
  split at h
  · split at h
    · cases h
      exact ⟨rfl, rfl⟩
    · cases h
  · cases h

/-- **One round keeps a set growing.** -/
theorem Growing.round (h : Growing commit fixed set) {next : Protected builds}
    (hnext : Protected.ofEntries builds (set.carriedRound selects (resolved commit)) = some next) :
    Growing commit fixed (next.lifting set.granted) := by
  obtain ⟨hentries, -⟩ := entries_of_ofEntries hnext
  rw [carriedRound_eq] at hentries
  refine ⟨fun entry hentry => ?_, fun entry hentry hloads => ?_, h.granted⟩
  · show entry ∈ next.entries
    rw [hentries, Saturate.mem_addAll]
    exact .inl (h.kept entry hentry)
  · have hmem : entry ∈ next.entries := hentry
    rw [hentries, Saturate.mem_addAll, List.mem_flatMap] at hmem
    rcases hmem with hmem | ⟨link, hlink, hmem⟩
    · exact h.held entry hmem hloads
    · exact heldGlob_carriable (carried_carriable h.held hlink hmem) hloads

/-- **The grown set holds what each link carries for it.** -/
theorem Growing.built (h : Growing commit fixed set)
    (hgrown : set.grown selects (resolved commit) rounds = .built out) :
    Growing commit fixed out ∧
      ∀ link ∈ resolved commit, ∀ new ∈ out.carried selects link, new ∈ out.entries := by
  induction rounds generalizing set with
  | zero => cases hgrown
  | succ rounds ih =>
    rw [Protected.grown] at hgrown
    split at hgrown
    · next hdone =>
      cases hgrown
      rw [carriedRound_eq, Saturate.addAll_length] at hdone
      exact ⟨h, fun link hlink new hnew => hdone new (List.mem_flatMap.mpr ⟨link, hlink, hnew⟩)⟩
    · split at hgrown
      · next next hnext => exact ih (h.round hnext) hgrown
      · cases hgrown

/-- **Growth ends** where every set on the way keeps `P`, and what links carry for such a set lies in
    one whole: each round but the last adds something of it. -/
theorem grown_ends {P : Protected builds → Prop} {links : List LoadedLink} (whole : List Entry)
    (hround : ∀ set next, P set →
      Protected.ofEntries builds (set.carriedRound selects links) = some next →
      P (next.lifting set.granted))
    (hcarried : ∀ set, P set → ∀ link ∈ links, ∀ new ∈ set.carried selects link, new ∈ whole)
    (h : P set) (hrounds : Saturate.missing whole set.entries < rounds) :
    set.grown selects links rounds ≠ .unfinished := by
  induction rounds generalizing set with
  | zero => omega
  | succ rounds ih =>
    rw [Protected.grown]
    split
    · simp
    · next hmore =>
      split
      · next next hnext =>
        refine ih (hround set next h hnext) ?_
        rw [carriedRound_eq] at hmore
        have hless := Saturate.missing_lt whole ?_ hmore
        · rw [← carriedRound_eq, ← (entries_of_ofEntries hnext).1] at hless
          show Saturate.missing _ next.entries < rounds
          omega
        · intro new hnew
          obtain ⟨link, hlink, hnew⟩ := List.mem_flatMap.mp hnew
          exact hcarried set h link hlink new hnew
      · simp

theorem Growing.finishes (h : Growing commit fixed set)
    (hrounds : Saturate.missing (allCarriable (resolved commit)) set.entries < rounds) :
    set.grown selects (resolved commit) rounds ≠ .unfinished :=
  grown_ends (allCarriable (resolved commit)) (fun _ _ hset hnext => hset.round hnext)
    (fun _ hset _ hlink _ hnew => carried_carriable hset.held hlink hnew) h hrounds

/-- The set of a run grows from its fixed entries. -/
theorem growing_new (commit : CommitTree) {project approved : List ScopeGlob}
    (h : Protected.new builds project approved = some set) :
    Growing commit (fixedEntries project approved) set := by
  obtain ⟨hentries, hgranted⟩ := entries_of_ofEntries h
  refine ⟨fun entry hentry => hentries ▸ hentry, fun entry hentry hloads => ?_, hgranted⟩
  rw [hentries] at hentry
  simp only [fixedEntries, List.mem_append, List.mem_map] at hentry
  obtain ⟨hreason, hway⟩ := Bool.and_eq_true_iff.mp hloads
  rcases hentry with ((((⟨glob, -, rfl⟩ | ⟨glob, hglob, rfl⟩) | ⟨glob, hglob, rfl⟩) |
    ⟨glob, -, rfl⟩) | ⟨glob, -, rfl⟩) | ⟨root, -, rfl⟩
  · cases hreason
  · exact heldGlob_config hglob
  · exact .name hglob
  · cases hreason
  · cases hreason
  · cases hway

/-! ## One link -/

/-- What a CLI loads holds the rest of a lookup, or the lookup is at a held path. -/
def Covered (selects : ScopeGlob → String → Bool) (set : Protected builds) (at_ : Path)
    (ahead : List String) : Prop :=
  (∃ entry ∈ set.entries, entry.loads = true ∧ selects entry.glob (joined (at_ ++ ahead)) = true) ∨
    ahead = [] ∧ ∃ entry ∈ set.entries, selects entry.glob (joined at_) = true

variable {link : LoadedLink} {entry : Entry} {ahead : List String}

/-- A link at a held path: its target is held, and all under it if it is a tree. -/
theorem covered_of_holding (ahead : List String) (hglob : PathGlobs selects) (hlink : link ∈ resolved commit)
    (hclosed : ∀ new ∈ set.carried selects link, new ∈ set.entries)
    (hentry : entry ∈ set.entries) (hloads : entry.loads = true)
    (hselects : selects entry.glob (joined link.path) = true)
    (hahead : ∀ name ∈ ahead, IsName name) (htree : ahead ≠ [] → link.tree = true) :
    Covered selects set link.target ahead := by
  obtain ⟨-, htarget, -⟩ := standing_of_resolved hlink
  rcases carriedHolding_cases set selects link with
    hnil | ⟨reason, hreason, hcarried⟩
  · exact absurd hnil (carriedHolding_ne_nil hentry hloads hselects)
  have hmem : ∀ new ∈ set.carriedHolding selects link, new ∈ set.entries := fun new hnew =>
    hclosed new (List.mem_append_left _ hnew)
  rw [hcarried, List.forall_mem_cons] at hmem
  obtain ⟨hfirst, hway⟩ := hmem
  have hnew : (⟨reason, if link.tree then under (joined link.target)
      else exact (joined link.target), false⟩ : Entry).loads = true := by
    simp [Entry.loads, hreason]
  cases hkind : link.tree with
  | false =>
    rw [hkind] at hfirst hnew
    have hnone : ahead = [] := by
      by_contra hne
      rw [htree hne] at hkind
      cases hkind
    subst hnone
    refine .inl ⟨_, hfirst, hnew, ?_⟩
    rw [List.append_nil]
    exact (exact_iff hglob htarget htarget).mpr rfl
  | true =>
    rw [hkind] at hfirst hnew hway
    by_cases hnone : ahead = []
    · refine .inr ⟨hnone, Entry.passed reason link.target, hway _ ?_, ?_⟩
      · exact List.mem_map_of_mem (List.mem_append_right _ List.mem_cons_self)
      · exact (exact_iff hglob htarget htarget).mpr rfl
    · refine .inl ⟨_, hfirst, hnew, ?_⟩
      exact (under_iff hglob htarget (htarget.append hahead)).mpr ⟨ahead, hnone, rfl⟩

/-- A link at or above a held tree: the tree's place beneath its target is held. -/
theorem covered_of_above (hglob : PathGlobs selects) (hread : SkillsReadable commit)
    (hlink : link ∈ resolved commit)
    (hclosed : ∀ new ∈ set.carried selects link, new ∈ set.entries)
    {dir rest more : Path} (hdir : HeldTree commit dir) (hover : dir = link.path ++ rest)
    (hentry : entry ∈ set.entries) (hloads : entry.loads = true)
    (htree : entry.glob = under (joined dir)) (hmore : more ≠ [])
    (hahead : ∀ name ∈ rest ++ more, IsName name) :
    Covered selects set link.target (rest ++ more) := by
  obtain ⟨-, htarget, -⟩ := standing_of_resolved hlink
  have hne : joined dir ≠ "" := fun h => joined_ne_nil hdir.isPath (by rw [h]; rfl)
  have hwhole : wholeTree entry.glob = some (joined dir) := by
    rw [htree]
    exact (wholeTree_under hne).mpr ⟨hdir.plain hread hlink ⟨rest, hover.symm⟩, rfl⟩
  have hnew : ⟨entry.reason, under (joined (link.target ++ rest)), false⟩ ∈ set.entries := by
    refine hclosed _ (List.mem_append_right _ (List.mem_flatMap.mpr ⟨entry, ?_, ?_⟩))
    · exact List.mem_filter.mpr ⟨hentry, hloads⟩
    · exact mem_carriedAbove.mpr
        ⟨joined dir, rest, hwhole, by rw [componentsOf_joined hdir.isPath.ne_nil hdir.isPath.steps, hover], .inl rfl⟩
  refine .inl ⟨_, hnew, ?_, ?_⟩
  · simp [Entry.loads, (Bool.and_eq_true_iff.mp hloads).1]
  · rw [← List.append_assoc]
    have hplace : IsPath (link.target ++ rest) :=
      htarget.append fun name hname => hahead name (List.mem_append_left _ hname)
    have hwhole : IsPath (link.target ++ rest ++ more) :=
      hplace.append fun name hname => hahead name (List.mem_append_right _ hname)
    exact (under_iff hglob hplace hwhole).mpr ⟨more, hmore, rfl⟩

/-- **Behind a link** the rest of a lookup is held, as it was in front of it. -/
theorem covered_of_follows (hglob : PathGlobs selects) (hread : SkillsReadable commit)
    (hlink : link ∈ resolved commit)
    (hclosed : ∀ new ∈ set.carried selects link, new ∈ set.entries)
    (hentry : entry ∈ set.entries) (hloads : entry.loads = true)
    (hheld : HeldGlob commit entry.glob) (hahead : ∀ name ∈ ahead, IsName name)
    (hselects : selects entry.glob (joined (link.path ++ ahead)) = true)
    (htree : ahead ≠ [] → link.tree = true) : Covered selects set link.target ahead := by
  obtain ⟨hpath, htarget, -⟩ := standing_of_resolved hlink
  have hwhole : IsPath (link.path ++ ahead) := hpath.append hahead
  have hholding := covered_of_holding ahead hglob hlink hclosed hentry hloads
  generalize hglobs : entry.glob = glob at hheld hselects hholding
  cases hheld with
  | @tree dir hdir =>
    obtain ⟨more, hmore, heq⟩ := (under_iff hglob hdir.isPath hwhole).mp hselects
    rcases List.append_eq_append_iff.mp heq with ⟨rest, hover, hrest⟩ | ⟨rest, hover, hrest⟩
    · -- the link stands at or above the tree
      rw [hrest] at hahead ⊢
      exact covered_of_above hglob hread hlink hclosed hdir hover hentry hloads hglobs hmore hahead
    · by_cases hnil : rest = []
      · rw [hnil, List.nil_append] at hrest
        rw [hnil, List.append_nil] at hover
        rw [hrest] at hmore
        rw [← List.nil_append ahead] at hahead ⊢
        exact covered_of_above hglob hread hlink hclosed hdir (by rw [hover, List.append_nil])
          hentry hloads hglobs hmore hahead
      · -- the link stands in the tree
        exact hholding ((under_iff hglob hdir.isPath hpath).mpr ⟨rest, hnil, hover⟩) hahead htree
  | path hfile habove =>
    have heq := (exact_iff hglob hfile hwhole).mp hselects
    have hat := habove link hlink ⟨ahead, heq⟩
    exact hholding ((exact_iff hglob hfile hpath).mpr hat) hahead htree
  | name hmem =>
    obtain ⟨name, hname⟩ := instruction_iff hglob hmem
    by_cases hnone : ahead = []
    · rw [hnone, List.append_nil] at hselects
      exact hholding hselects hahead htree
    · -- the name stands last behind the link as well
      refine .inl ⟨entry, hentry, hloads, ?_⟩
      rw [hglobs, hname _ (htarget.append hahead)]
      rw [hname _ hwhole] at hselects
      rwa [List.getLast?_append_of_ne_nil _ hnone] at hselects ⊢

/-! ## A whole lookup -/

theorem Lookup.dir {at_ : Path} {name : String} {reached : Path}
    (h : Lookup commit at_ (name :: ahead) reached) : at_ ∉ commit.files := by
  cases h with
  | enters hfile => exact hfile
  | follows hfile => exact hfile

/-- **What a covered lookup reaches is held.** -/
theorem lookup_held (hglob : PathGlobs selects) (hread : SkillsReadable commit)
    (hset : Growing commit fixed set)
    (hclosed : ∀ link ∈ resolved commit, ∀ new ∈ set.carried selects link, new ∈ set.entries)
    {at_ reached : Path} (h : Lookup commit at_ ahead reached) (hstands : Unlinked commit at_)
    (hahead : ∀ name ∈ ahead, IsName name) (hcovered : Covered selects set at_ ahead) :
    ∃ entry ∈ set.entries, selects entry.glob (joined reached) = true := by
  induction h with
  | @arrives at_ =>
    rcases hcovered with ⟨entry, hentry, -, hselects⟩ | ⟨-, hheld⟩
    · rw [List.append_nil] at hselects
      exact ⟨entry, hentry, hselects⟩
    · exact hheld
  | @enters at_ name ahead reached _ hname hlink _ ih =>
    rcases hcovered with hcovered | ⟨hnone, -⟩
    · rw [List.forall_mem_cons] at hahead
      refine ih (hstands.enter hname hlink) hahead.2 (.inl ?_)
      rwa [List.append_assoc]
    · cases hnone
  | @follows at_ name text names ahead hops target reached _ hname hlink hnames hwalk hle hne hrest
      ih =>
    obtain ⟨link, hmem, hpath, rfl, hfile⟩ := exists_loaded hlink hnames hwalk hle hne
    rw [List.forall_mem_cons] at hahead
    refine ih (standing_of_resolved hmem).2.2 hahead.2 ?_
    rcases hcovered with ⟨entry, hentry, hloads, hselects⟩ | ⟨hnone, -⟩
    · refine covered_of_follows hglob hread hmem (hclosed link hmem) hentry hloads
        (hset.held entry hentry hloads) hahead.2 ?_ ?_
      · rwa [hpath, List.append_assoc]
      · -- nothing is looked up under a file
        intro hmore
        obtain ⟨next, more, rfl⟩ := List.exists_cons_of_ne_nil hmore
        by_contra hkind
        exact hrest.dir (hfile (by simpa using hkind))
    · cases hnone

/-- Whether a CLI loads a path: as its own configuration, or as instructions. -/
def Loaded (selects : ScopeGlob → String → Bool) (path : Path) : Prop :=
  ∃ glob ∈ agentConfigGlobs ++ instructionGlobs, selects glob (joined path) = true

theorem Loaded.covered {project approved : List ScopeGlob} {path : Path}
    (h : Loaded selects path) (hset : Growing commit (fixedEntries project approved) set) :
    Covered selects set [] path := by
  obtain ⟨glob, hglob, hselects⟩ := h
  rcases List.mem_append.mp hglob with hglob | hglob
  · refine .inl ⟨⟨.agentConfig, glob, false⟩, hset.kept _ ?_, rfl, hselects⟩
    simp [fixedEntries, hglob]
  · refine .inl ⟨⟨.agentInstructions, glob, false⟩, hset.kept _ ?_, rfl, hselects⟩
    simp only [fixedEntries, List.mem_append, List.mem_map]
    exact .inl (.inl (.inl (.inr ⟨glob, hglob, rfl⟩)))

/-- Where nothing is granted, what an entry selects is held for some reason. -/
theorem reasonOf_isSome {path : String} (hgranted : set.granted = [])
    (h : ∃ entry ∈ set.entries, selects entry.glob path = true) :
    (set.reasonOf selects path).isSome = true := by
  obtain ⟨entry, hentry, hselects⟩ := h
  cases hreason : set.reasonOf selects path with
  | some reason => rfl
  | none =>
    have hlifted := (Protected.reasonOf_eq_none.mp hreason entry hentry hselects).2
    simp [Protected.lifted, hgranted] at hlifted

end

/-- **Following links leaves no way round**: growing the set of a run ends, and the grown set holds
    every path a lookup of what a CLI loads reaches. -/
theorem following_holds {selects : ScopeGlob → String → Bool} (hglob : PathGlobs selects)
    (builds : List ScopeGlob → Bool) (project approved : List ScopeGlob) (commit : CommitTree)
    (hread : SkillsReadable commit) :
    (∀ rounds set,
      Protected.ofRun selects builds project approved (resolved commit) rounds = .built set →
      ∀ path reached, IsPath path → Loaded selects path → Lookup commit [] path reached →
        (set.reasonOf selects (joined reached)).isSome = true) ∧
    ∀ rounds, (allCarriable (resolved commit)).length < rounds →
      Protected.ofRun selects builds project approved (resolved commit) rounds ≠ .unfinished := by
  constructor
  · intro rounds set hrun path reached hpath hloaded hlookup
    unfold Protected.ofRun at hrun
    split at hrun
    · next first hfirst =>
      obtain ⟨hset, hclosed⟩ := (growing_new commit hfirst).built hrun
      exact reasonOf_isSome hset.granted (lookup_held hglob hread hset hclosed hlookup
        (standing_nil commit) hpath.named (hloaded.covered hset))
    · cases hrun
  · intro rounds hrounds
    unfold Protected.ofRun
    split
    · next first hfirst =>
      refine (growing_new commit hfirst).finishes (Nat.lt_of_le_of_lt ?_ hrounds)
      exact List.length_filter_le _ _
    · simp

/-- Where every set builds, so does the set of a run. -/
theorem ofRun_ne_unbuilt (selects : ScopeGlob → String → Bool) (project approved : List ScopeGlob)
    (links : List LoadedLink) (rounds : Nat) :
    Protected.ofRun selects (fun _ => true) project approved links rounds ≠ .unbuilt := by
  show Protected.grown selects links rounds _ ≠ _
  generalize (⟨fixedEntries project approved, [], rfl, rfl⟩ : Protected fun _ => true) = set
  induction rounds generalizing set with
  | zero => simp [Protected.grown]
  | succ rounds ih =>
    rw [Protected.grown]
    split
    · simp
    · exact ih _

/-- `.agents` links to a directory whose `skills` is a link again. -/
def chained : CommitTree where
  links := [([".agents"], "kit"), (["kit", "skills"], "../pkg")]
  files := [["pkg", "a.md"]]
  once := by decide +kernel
  paths := by decide +kernel
  below := by decide +kernel

theorem chained_lookup : Lookup chained [] [".agents", "skills", "a.md"] ["pkg", "a.md"] := by
  have hagents : chained.linkAt ([] ++ [".agents"]) = some "kit" := by decide +kernel
  have hskills : chained.linkAt (["kit"] ++ ["skills"]) = some "../pkg" := by decide +kernel
  have hkit : Walk chained 0 [] ["kit"] ["kit"] :=
    .enters (by decide +kernel) (by decide +kernel) (by decide +kernel) (by decide +kernel) .arrives
  have hpkg : Walk chained 0 ["kit"] ["..", "pkg"] ["pkg"] :=
    .climbs (by decide +kernel) (by decide +kernel)
      (.enters (by decide +kernel) (by decide +kernel) (by decide +kernel) (by decide +kernel)
        .arrives)
  refine .follows (by decide +kernel) (by decide +kernel) hagents (by decide +kernel) hkit
    (by decide +kernel) (by decide +kernel) ?_
  refine .follows (by decide +kernel) (by decide +kernel) hskills (by decide +kernel) hpkg
    (by decide +kernel) (by decide +kernel) ?_
  exact .enters (by decide +kernel) (by decide +kernel) (by decide +kernel) .arrives

theorem following_holds_chained : ∃ set,
    Protected.ofRun pathSelects (fun _ => true) [] [] (resolved chained) 40 = .built set ∧
      (set.reasonOf pathSelects "pkg/a.md").isSome = true := by
  obtain ⟨hheld, hends⟩ := following_holds pathSelects_pathGlobs (fun _ => true) [] [] chained
    (by decide +kernel)
  cases hrun : Protected.ofRun pathSelects (fun _ => true) [] [] (resolved chained) 40 with
  | unfinished => exact absurd hrun (hends 40 (by decide +kernel))
  | unbuilt => exact absurd hrun (ofRun_ne_unbuilt _ _ _ _ _)
  | built set =>
    refine ⟨set, rfl, hheld 40 set hrun _ ["pkg", "a.md"] ?_ ?_ chained_lookup⟩
    · decide +kernel
    · exact ⟨".agents/skills/**", by decide +kernel, by decide +kernel⟩

/-! ## The ways round -/

/-- No walk, through whatever links, leads from what a CLI loads to a path the grown set leaves
    free. -/
def NoWayRound (commit : CommitTree) : Prop :=
  ∀ rounds set,
    Protected.ofRun pathSelects (fun _ => true) [] [] (resolved commit) rounds = .built set →
    ∀ path reached hops, IsPath path → Loaded pathSelects path → Walk commit hops [] path reached →
      reached ≠ [] → (set.reasonOf pathSelects (joined reached)).isSome = true

/-- A link to the checkout itself. -/
def ofCheckout : CommitTree where
  links := [([".claude", "root"], "..")]
  files := [["src", "main.rs"]]
  once := by decide +kernel
  paths := by decide +kernel
  below := by decide +kernel

theorem not_following_holds : ¬ NoWayRound ofCheckout := by
  intro h
  have hrun : Protected.ofRun pathSelects (fun _ => true) [] [] (resolved ofCheckout) 1 =
      .built (Protected.denying []) := by
    rw [show resolved ofCheckout = [] by decide +kernel]
    show Protected.grown _ _ 1 (Protected.denying []) = _
    rw [Protected.grown]
    exact if_pos rfl
  have hroot : ofCheckout.linkAt ([".claude"] ++ ["root"]) = some ".." := by decide +kernel
  have hnames : namesOf ".." = some [".."] := by decide +kernel
  have hwalk : Walk ofCheckout 1 [] [".claude", "root", "src", "main.rs"] ["src", "main.rs"] := by
    refine .enters (by decide +kernel) (by decide +kernel) (by decide +kernel) (by decide +kernel) ?_
    refine .follows (by decide +kernel) (by decide +kernel) (by decide +kernel) hroot hnames ?_
    refine .climbs (by decide +kernel) (by decide +kernel) ?_
    refine .enters (by decide +kernel) (by decide +kernel) (by decide +kernel) (by decide +kernel) ?_
    exact .enters (by decide +kernel) (by decide +kernel) (by decide +kernel) (by decide +kernel)
      .arrives
  have hheld := h 1 _ hrun _ _ 1 (by decide +kernel)
    ⟨".claude/**", by decide +kernel, by decide +kernel⟩ hwalk (by decide +kernel)
  exact absurd hheld (by decide +kernel)

end Yunta
