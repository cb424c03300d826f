/-
  Closing the protected set over links ends.

  1. **Resolving** — the loop of `resolve`, turn by turn: a turn walks past a name, and behind a link
     it walks on through one link fewer.  So some number of turns is enough, and gives what `walk`
     does (`resolveTurns_walk`).

  2. **What a link carries** — no link stands over what a link resolves to, so a tree carried through
     a second link keeps less of the tree it began with: what stands below a target is always an end
     of a tree of the first set (`Grown.over`).  There is only so much of that (`carried_from`).

  3. **Growth** — each round but the last adds something of it (`following_ends`).
-/
import Yunta.Scope.Grown

set_option linter.unusedVariables false

namespace Yunta

/-! ## Resolving -/

/-- Where the loop of `resolve` stands. -/
structure Walking where
  at_ : Path
  ahead : List String
  passed : List Path
  hops : Nat

/-- What a turn of the loop leaves: what it resolves to, or where it goes on from. -/
inductive ResolveTurn where
  | ended (found : Option (Path × List Path))
  | on (next : Walking)

/-- One turn of the loop. -/
def resolveTurn (links : Path → Option String) (now : Walking) : ResolveTurn :=
  match now.ahead with
  | [] => .ended (some (now.at_, now.passed))
  | name :: ahead =>
    if name = "." then .on ⟨now.at_, ahead, now.passed, now.hops⟩
    else if name = ".." then
      if now.at_ = [] then .ended none else .on ⟨now.at_.dropLast, ahead, now.passed, now.hops⟩
    else
      match links (now.at_ ++ [name]) with
      | some next =>
        if now.hops + 1 > HOPS then .ended none
        else
          match namesOf next with
          | some names =>
            .on ⟨now.at_, names ++ ahead, now.passed ++ [now.at_ ++ [name]], now.hops + 1⟩
          | none => .ended none
      | none =>
        .on ⟨now.at_ ++ [name], ahead,
          if ahead = [] then now.passed else now.passed ++ [now.at_ ++ [name]], now.hops⟩

/-- The loop, for as many turns; `none` when they do not suffice. -/
def resolveTurns (links : Path → Option String) : Nat → Walking → Option (Option (Path × List Path))
  | 0, _ => none
  | left + 1, now =>
    match resolveTurn links now with
    | .ended found => some found
    | .on next => resolveTurns links left next

section
variable {links : Path → Option String} {now next : Walking} {found : Option (Path × List Path)}

/-- Some number of turns is enough, and so is any more. -/
def Ends (links : Path → Option String) (now : Walking) (found : Option (Path × List Path)) : Prop :=
  ∃ enough, ∀ count, enough ≤ count → resolveTurns links count now = some found

theorem Ends.ended (h : resolveTurn links now = .ended found) : Ends links now found := by
  refine ⟨1, fun count hcount => ?_⟩
  obtain ⟨count, rfl⟩ : ∃ left, count = left + 1 := ⟨count - 1, by omega⟩
  rw [resolveTurns, h]

theorem Ends.on (h : resolveTurn links now = .on next) (hends : Ends links next found) :
    Ends links now found := by
  obtain ⟨enough, hall⟩ := hends
  refine ⟨enough + 1, fun count hcount => ?_⟩
  obtain ⟨count, rfl⟩ : ∃ left, count = left + 1 := ⟨count - 1, by omega⟩
  rw [resolveTurns, h]
  exact hall count (by omega)

/-- Between two links each turn leaves a name fewer ahead. -/
theorem steps_ends {left hops : Nat}
    (hjump : HOPS < hops + 1 ∧ (∀ at_ ahead passed, jump links left at_ ahead passed = none) ∨
      hops + 1 ≤ HOPS ∧ ∀ at_ ahead passed,
        Ends links ⟨at_, ahead, passed, hops + 1⟩ (jump links left at_ ahead passed))
    (at_ : Path) (ahead : List String) (passed : List Path) :
    Ends links ⟨at_, ahead, passed, hops⟩ (steps links (jump links left) at_ ahead passed) := by
  induction ahead generalizing at_ passed with
  | nil => exact .ended rfl
  | cons name ahead ih =>
    by_cases hdot : name = "."
    · rw [steps, if_pos hdot]
      exact .on (if_pos hdot) (ih at_ passed)
    rw [steps, if_neg hdot]
    by_cases hdots : name = ".."
    · rw [if_pos hdots]
      by_cases hroot : at_ = []
      · rw [if_pos hroot]
        exact .ended (by simp only [resolveTurn, if_neg hdot, if_pos hdots, if_pos hroot])
      · rw [if_neg hroot]
        exact .on (by simp only [resolveTurn, if_neg hdot, if_pos hdots, if_neg hroot]) (ih at_.dropLast passed)
    rw [if_neg hdots]
    cases hlink : links (at_ ++ [name]) with
    | none => exact .on (by simp only [resolveTurn, if_neg hdot, if_neg hdots, hlink]) (ih _ _)
    | some next =>
      rcases hjump with ⟨hover, hnone⟩ | ⟨hwithin, hends⟩
      · -- One link too many.
        have hfound : ((namesOf next).bind fun names =>
            jump links left at_ (names ++ ahead) (passed ++ [at_ ++ [name]])) = none := by
          cases namesOf next with
          | none => rfl
          | some names => exact hnone _ _ _
        show Ends links _ ((namesOf next).bind _)
        rw [hfound]
        exact .ended (by simp only [resolveTurn, if_neg hdot, if_neg hdots, hlink, gt_iff_lt, if_pos hover])
      · show Ends links _ ((namesOf next).bind _)
        cases hnames : namesOf next with
        | none =>
          refine .ended ?_
          simp only [resolveTurn, if_neg hdot, if_neg hdots, hlink, if_neg (Nat.not_lt.mpr hwithin), hnames,
            gt_iff_lt]
          rfl
        | some names =>
          rw [Option.bind_some]
          refine .on ?_ (hends at_ (names ++ ahead) (passed ++ [at_ ++ [name]]))
          simp only [resolveTurn, if_neg hdot, if_neg hdots, hlink, if_neg (Nat.not_lt.mpr hwithin), hnames,
            gt_iff_lt]

/-- **The loop ends**, with what `walk` gives: behind each link it may pass one link fewer. -/
theorem resolveTurns_walk (links : Path → Option String) {left hops : Nat} (hleft : hops + left = HOPS)
    (at_ : Path) (ahead : List String) (passed : List Path) :
    Ends links ⟨at_, ahead, passed, hops⟩ (walk links left at_ ahead passed) := by
  induction left generalizing hops at_ ahead passed with
  | zero =>
    rw [walk_eq]
    exact steps_ends (.inl ⟨by omega, fun _ _ _ => rfl⟩) at_ ahead passed
  | succ left ih =>
    rw [walk_eq]
    exact steps_ends (.inr ⟨by omega, ih (by omega)⟩) at_ ahead passed

end

/-! ## What a link carries -/

/-- What may stand below a target: an end of a whole tree the first set holds. -/
def belowsOf (start : List Entry) : List Path :=
  [] :: start.flatMap fun entry =>
    match wholeTree entry.glob with
    | some tree => (componentsOf tree).tails
    | none => []

/-- All that links can carry, for a first set. -/
def carriableFrom (start : List Entry) (links : List LoadedLink) : List Entry :=
  [Protection.agentConfig, .agentInstructions].flatMap fun reason =>
    links.flatMap fun link =>
      (belowsOf start).flatMap fun below =>
        [⟨reason, under (joined (link.target ++ below)), false⟩,
          ⟨reason, exact (joined link.target), false⟩] ++
            (link.passed ++ wayDown link.target below).map (Entry.passed reason)

/-- What an entry of a set grown from a first one is: one of the first set, one no tree is read back
    from, or a tree below a target. -/
def Grew (start : List Entry) (links : List LoadedLink) (entry : Entry) : Prop :=
  entry ∈ start ∨ wholeTree entry.glob = none ∨ ∃ link ∈ links, ∃ below ∈ belowsOf start,
    (∀ name ∈ below, IsStep name) ∧ entry.glob = under (joined (link.target ++ below))

section
variable {builds : List ScopeGlob → Bool} {selects : ScopeGlob → String → Bool}
  {commit : CommitTree} {links : List LoadedLink} {start : List Entry} {set : Protected builds}
  {link : LoadedLink} {entry new : Entry}

theorem mem_belowsOf_tail {below rest : Path} (h : below ∈ belowsOf start) (hrest : rest <:+ below) :
    rest ∈ belowsOf start := by
  rcases List.mem_cons.mp h with rfl | h
  · rw [List.suffix_nil.mp hrest]
    exact List.mem_cons_self
  · obtain ⟨entry, hentry, hmem⟩ := List.mem_flatMap.mp h
    refine List.mem_cons_of_mem _ (List.mem_flatMap.mpr ⟨entry, hentry, ?_⟩)
    cases htree : wholeTree entry.glob with
    | none => simp [htree] at hmem
    | some tree =>
      simp only [htree, List.mem_tails] at hmem ⊢
      exact hrest.trans hmem

/-- **What a link keeps of a tree is an end of a tree of the first set**: no link stands over a target,
    so one that stands over a tree below it takes of what stands below. -/
theorem Grew.over (h : Grew start links entry) (hlinks : ∀ link ∈ links, link ∈ resolved commit)
    (hlink : link ∈ links) {tree : String} {rest : Path} (htree : wholeTree entry.glob = some tree)
    (hover : componentsOf tree = link.path ++ rest) :
    rest ∈ belowsOf start ∧ ∀ name ∈ rest, IsStep name := by
  have hpath := (standing_of_resolved (hlinks link hlink)).1
  refine ⟨?_, steps_behind hpath hover⟩
  rcases h with hmem | hnone | ⟨other, hother, below, hbelow, hsteps, hglob⟩
  · refine List.mem_cons_of_mem _ (List.mem_flatMap.mpr ⟨entry, hmem, ?_⟩)
    simp only [htree, hover, List.mem_tails]
    exact List.suffix_append _ _
  · rw [hnone] at htree
    cases htree
  · obtain ⟨-, htarget, hstands⟩ := standing_of_resolved (hlinks other hother)
    have hne : other.target ++ below ≠ [] := by
      intro hnil
      exact htarget.ne_nil (List.append_eq_nil_iff.mp hnil).1
    have hnames : componentsOf (joined (other.target ++ below)) = other.target ++ below := by
      refine componentsOf_joined hne fun name hname => ?_
      rcases List.mem_append.mp hname with hname | hname
      · exact htarget.steps name hname
      · exact hsteps name hname
    have htext : joined (other.target ++ below) ≠ "" := by
      intro hempty
      rw [hempty] at hnames
      exact hne (hnames.symm.trans (by decide +kernel))
    rw [hglob, wholeTree_under htext] at htree
    rw [htree.2, hnames] at hover
    -- The link stands at or below the target: what it leaves is an end of what stood below.
    rcases List.append_eq_append_iff.mp hover with ⟨more, hdown, hrest⟩ | ⟨more, hup, hrest⟩
    · exact mem_belowsOf_tail hbelow ⟨more, hrest.symm⟩
    · exact absurd ⟨more, hup.symm⟩ (not_over_standing hstands (hlinks link hlink))

theorem mem_carriableFrom {reason : Protection} {below : Path} (hlink : link ∈ links)
    (hreason : reason.followsLinks = true) (hbelow : below ∈ belowsOf start)
    (hnew : new ∈ [⟨reason, under (joined (link.target ++ below)), false⟩,
      ⟨reason, exact (joined link.target), false⟩] ++
        (link.passed ++ wayDown link.target below).map (Entry.passed reason)) :
    new ∈ carriableFrom start links := by
  refine List.mem_flatMap.mpr ⟨reason, ?_, List.mem_flatMap.mpr ⟨link, hlink,
    List.mem_flatMap.mpr ⟨below, hbelow, hnew⟩⟩⟩
  cases reason <;> simp_all [Protection.followsLinks]

theorem grew_passed (start : List Entry) (links : List LoadedLink) (reason : Protection) (step : Path) :
    Grew start links (Entry.passed reason step) :=
  .inr (.inl (wholeTree_exact _))

/-- **What a link carries is carriable**, and grew from the first set as well. -/
theorem carried_from (hlinks : ∀ link ∈ links, link ∈ resolved commit)
    (hgrew : ∀ entry ∈ set.entries, Grew start links entry) (hlink : link ∈ links)
    (hnew : new ∈ set.carried selects link) :
    new ∈ carriableFrom start links ∧ Grew start links new := by
  rcases List.mem_append.mp hnew with hnew | hnew
  · rcases carriedHolding_cases set selects link with hnil | ⟨reason, hreason, hcarried⟩
    · rw [hnil] at hnew
      exact absurd hnew List.not_mem_nil
    · rw [hcarried] at hnew
      have hcarriable : ∀ new ∈ [⟨reason, under (joined link.target), false⟩,
          ⟨reason, exact (joined link.target), false⟩] ++
            (link.passed ++ wayDown link.target []).map (Entry.passed reason),
          new ∈ carriableFrom start links := by
        intro new hnew
        rw [← List.append_nil link.target] at hnew
        exact mem_carriableFrom hlink hreason List.mem_cons_self (by simpa using hnew)
      rcases List.mem_cons.mp hnew with rfl | hnew
      · cases link.tree with
        | true =>
          refine ⟨hcarriable _ (by simp), .inr (.inr ⟨link, hlink, [], List.mem_cons_self, ?_, ?_⟩)⟩
          · exact fun name hname => absurd hname List.not_mem_nil
          · rw [List.append_nil]
            rfl
        | false => exact ⟨hcarriable _ (by simp), .inr (.inl (wholeTree_exact _))⟩
      · obtain ⟨step, hstep, rfl⟩ := List.mem_map.mp hnew
        refine ⟨hcarriable _ (List.mem_append_right _ (List.mem_map_of_mem ?_)), grew_passed ..⟩
        rcases List.mem_append.mp hstep with hstep | hstep
        · exact List.mem_append_left _ hstep
        · have htarget : step = link.target := by
            cases htree : link.tree <;> simp_all
          exact List.mem_append_right _ (mem_wayDown.mpr ⟨[], List.nil_prefix, by simp [htarget]⟩)
  · obtain ⟨entry, hentry, hnew⟩ := List.mem_flatMap.mp hnew
    obtain ⟨hmem, hloads⟩ := List.mem_filter.mp hentry
    obtain ⟨tree, rest, htree, hover, hnew⟩ := mem_carriedAbove.mp hnew
    obtain ⟨hbelow, hsteps⟩ := (hgrew entry hmem).over hlinks hlink htree hover
    have hreason := (Bool.and_eq_true_iff.mp hloads).1
    rcases hnew with rfl | ⟨step, hstep, rfl⟩
    · exact ⟨mem_carriableFrom hlink hreason hbelow (by simp),
        .inr (.inr ⟨link, hlink, rest, hbelow, hsteps, rfl⟩)⟩
    · exact ⟨mem_carriableFrom hlink hreason hbelow
        (List.mem_append_right _ (List.mem_map_of_mem hstep)), grew_passed ..⟩

/-! ## Growth -/

/-- One round adds only what is carriable, and what it leaves grew from the first set. -/
theorem grew_round (hlinks : ∀ link ∈ links, link ∈ resolved commit)
    (hgrew : ∀ entry ∈ set.entries, Grew start links entry) {next : Protected builds}
    (hnext : Protected.ofEntries builds (set.carriedRound selects links) = some next) :
    ∀ entry ∈ next.entries, Grew start links entry := by
  intro entry hentry
  rw [(entries_of_ofEntries hnext).1, carriedRound_eq, Saturate.mem_addAll, List.mem_flatMap] at hentry
  rcases hentry with hentry | ⟨link, hlink, hentry⟩
  · exact hgrew entry hentry
  · exact (carried_from hlinks hgrew hlink hentry).2

/-- Growth ends: each round but the last adds something of what is carriable. -/
theorem grown_finishes (hlinks : ∀ link ∈ links, link ∈ resolved commit)
    (hgrew : ∀ entry ∈ set.entries, Grew start links entry) {rounds : Nat}
    (hrounds : Saturate.missing (carriableFrom start links) set.entries < rounds) :
    set.grown selects links rounds ≠ .unfinished :=
  grown_ends (carriableFrom start links)
    (fun _ _ hset hnext entry hentry => grew_round hlinks hset hnext entry hentry)
    (fun _ hset _ hlink _ hnew => (carried_from hlinks hset hlink hnew).1) hgrew hrounds

/-- Rounds past the last leave the growth as it ended. -/
theorem grown_more {rounds : Nat} (h : set.grown selects links rounds ≠ .unfinished) {more : Nat}
    (hmore : rounds ≤ more) : set.grown selects links more = set.grown selects links rounds := by
  induction rounds generalizing set more with
  | zero => exact absurd rfl h
  | succ rounds ih =>
    obtain ⟨more, rfl⟩ : ∃ left, more = left + 1 := ⟨more - 1, by omega⟩
    rw [Protected.grown] at h
    rw [Protected.grown, Protected.grown]
    split
    · rfl
    · next hstill =>
      rw [if_neg hstill] at h
      cases hnext : Protected.ofEntries builds (set.carriedRound selects links) with
      | none => rfl
      | some next =>
        rw [hnext] at h
        exact ih h (by omega)

end

/-- **Closing the protected set over links ends**, for links of a commit's tree and a first set of
    whatever globs; and so does resolving a path through any links. -/
theorem following_ends (commit : CommitTree) (links : List LoadedLink)
    (hlinks : ∀ link ∈ links, link ∈ resolved commit) (builds : List ScopeGlob → Bool)
    (selects : ScopeGlob → String → Bool) (set : Protected builds) :
    (∃ enough outcome, outcome ≠ .unfinished ∧
      ∀ rounds, enough ≤ rounds → set.grown selects links rounds = outcome) ∧
    ∀ (texts : Path → Option String) (dir : Path) (ahead : List String),
      Ends texts ⟨dir, ahead, [], 0⟩ (walk texts HOPS dir ahead []) := by
  have hends : set.grown selects links ((carriableFrom set.entries links).length + 1) ≠ .unfinished :=
    grown_finishes hlinks (fun entry hentry => .inl hentry)
      (Nat.lt_succ_of_le (Saturate.missing_le _ _))
  exact ⟨⟨_, _, hends, fun rounds hrounds => grown_more hends hrounds⟩,
    fun texts dir ahead => resolveTurns_walk texts (Nat.zero_add HOPS) dir ahead []⟩

/-- A link back from where `.claude` leads to `.claude`, and a link to itself. -/
def cyclic : CommitTree where
  links := [([".claude"], "kit"), (["kit", "back"], "../.claude"), (["loop"], "loop")]
  files := [["kit", "a.md"]]
  once := by decide +kernel
  paths := by decide +kernel
  below := by decide +kernel

/-- A set that holds a tree through the link back twice over. -/
def backTwice : Protected fun _ => true :=
  ⟨[⟨.agentConfig, ".claude/**", false⟩, ⟨.agentConfig, "kit/back/back/**", false⟩], [], rfl, rfl⟩

theorem following_ends_cyclic :
    resolved cyclic =
      [⟨[".claude"], ["kit"], [], true⟩, ⟨["kit", "back"], ["kit"], [[".claude"]], true⟩] ∧
    ∃ enough outcome, outcome ≠ .unfinished ∧ ∀ rounds, enough ≤ rounds →
      backTwice.grown pathSelects (resolved cyclic) rounds = outcome :=
  ⟨by decide +kernel, (following_ends cyclic (resolved cyclic) (fun _ h => h) (fun _ => true)
    pathSelects backTwice).1⟩

end Yunta
