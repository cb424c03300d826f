/-
  Two codes lined up: what every step of the comparison leaves true.

  1. **Runs** — `Lined`: the runs tile both codes' words, and a kept run says the same words in both.
     `Inside`: each change stands between two runs.

  2. **Lining up** — what the two open with, the steps between and what they close with are joined run
     by run (`aligned_lined`).

  3. **Changes inside** — what the codes open and close with is kept, so a change has a run on either
     side (`aligned_inside`).
-/
import Yunta.Code.Diff

set_option linter.unusedVariables false

namespace Yunta.Diff

open Spans

/-! ## Runs -/

namespace Run

/-- Where a run starts in both codes. -/
def opens (run : Run) : Nat × Nat := (run.planned.start, run.today.start)

/-- Where it ends in both. -/
def closes (run : Run) : Nat × Nat := (run.planned.stop, run.today.stop)

/-- A run ends no earlier than it starts, and where it is kept says in one what it says in the other. -/
structure Ok (f g : Nat → List Char) (run : Run) : Prop where
  planned : run.planned.start ≤ run.planned.stop
  today : run.today.start ≤ run.today.stop
  length : run.kept = true →
    run.planned.stop + run.today.start = run.today.stop + run.planned.start
  same : run.kept = true → ∀ i, run.planned.start + i < run.planned.stop →
    f (run.planned.start + i) = g (run.today.start + i)

end Run

variable {f g : Nat → List Char}

variable (f g) in
/-- The runs tile what `f` and `g` say between two places in each. -/
abbrev Lined (lo : Nat × Nat) (runs : List Run) (hi : Nat × Nat) : Prop :=
  Tiles Run.opens Run.closes (Run.Ok f g) lo runs hi

/-- Each change stands between two runs. -/
def Inside (runs : List Run) : Prop :=
  ∀ place run, runs[place]? = some run → run.kept = false → 0 < place ∧ place + 1 < runs.length

/-! ## Lining up -/

theorem lined_snoc {lo : Nat × Nat} {runs : List Run} {run : Run} {hi : Nat × Nat}
    (h : Lined f g lo runs run.opens) (hrun : run.Ok f g) (hhi : run.closes = hi) :
    Lined f g lo (runs ++ [run]) hi :=
  tiles_append.mpr ⟨_, h, rfl, hrun, hhi⟩

/-- A stretch joined to the runs tiles on. -/
theorem joined_lined {lo : Nat × Nat} {runs : List Run} {p t p' t' : Nat} {kept : Bool}
    (h : Lined f g lo runs (p, t)) (hrun : Run.Ok f g ⟨⟨p, p'⟩, ⟨t, t'⟩, kept⟩) :
    Lined f g lo (joined runs ⟨p, p'⟩ ⟨t, t'⟩ kept) (p', t') := by
  unfold joined
  cases hlast : runs.getLast? with
  | none => exact lined_snoc h hrun rfl
  | some last =>
    dsimp only
    split_ifs with hkept
    · -- The last run and the stretch are of one kind.
      rw [← List.dropLast_append_getLast? last hlast] at h
      obtain ⟨mid, hfront, rfl, hok, hend⟩ := tiles_append.mp h
      have hp : last.planned.stop = p := congrArg Prod.fst hend
      have ht : last.today.stop = t := congrArg Prod.snd hend
      have hplanned := hok.planned
      have htoday := hok.today
      refine lined_snoc hfront ⟨?_, ?_, fun hk => ?_, fun hk i hi => ?_⟩ rfl
      · exact Nat.le_trans hplanned (hp ▸ hrun.planned)
      · exact Nat.le_trans htoday (ht ▸ hrun.today)
      · have hlength := hok.length (hkept.trans hk)
        have hlength' := hrun.length hk
        dsimp only at hlength' ⊢
        omega
      · have hlength := hok.length (hkept.trans hk)
        by_cases hin : last.planned.start + i < last.planned.stop
        · exact hok.same (hkept.trans hk) i hin
        · have hnew := hrun.same hk (last.planned.start + i - p) (by dsimp only at hi ⊢; omega)
          dsimp only at hnew ⊢
          rw [show p + (last.planned.start + i - p) = last.planned.start + i by omega,
            show t + (last.planned.start + i - p) = last.today.start + i by omega] at hnew
          exact hnew
    · exact lined_snoc h hrun rfl

/-- Steps from one place in both codes to another, past a word of both only where they say the same. -/
def Path (f g : Nat → List Char) : Nat → Nat → List Step → Nat → Nat → Prop
  | p, t, [], p', t' => p = p' ∧ t = t'
  | p, t, step :: rest, p', t' => (step = .kept → f p = g t) ∧
    Path f g (p + if step = .removed then 0 else 1) (t + if step = .added then 0 else 1) rest p' t'

theorem stepped_lined {lo : Nat × Nat} {path : List Step} {p t p' t' : Nat} {runs : List Run}
    (h : Lined f g lo runs (p, t)) (hpath : Path f g p t path p' t') :
    Lined f g lo (path.foldl stepped (runs, p, t)).1 (p', t') ∧
      (path.foldl stepped (runs, p, t)).2 = (p', t') := by
  induction path generalizing runs p t with
  | nil =>
    obtain ⟨rfl, rfl⟩ := hpath
    exact ⟨h, rfl⟩
  | cons step rest ih =>
    obtain ⟨hsame, hrest⟩ := hpath
    refine ih (joined_lined h ⟨Nat.le_add_right _ _, Nat.le_add_right _ _, fun hk => ?_,
      fun hk i hi => ?_⟩) hrest
    · obtain rfl : step = .kept := by simpa using hk
      show p + 1 + t = t + 1 + p
      omega
    · obtain rfl : step = .kept := by simpa using hk
      have hzero : i = 0 := by
        have hi' : p + i < p + 1 := hi
        omega
      subst hzero
      exact hsame rfl

/-- Whichever step is next, it goes past a word a code has left. -/
theorem nextStep_cases (longest : Array Nat) {rows columns : Nat} (same : Nat → Nat → Bool)
    {row column : Nat} (h : row < rows ∨ column < columns) :
    nextStep longest rows columns same row column = .kept ∧ row < rows ∧ column < columns ∧
        same row column = true ∨
      nextStep longest rows columns same row column = .added ∧ row < rows ∨
      nextStep longest rows columns same row column = .removed ∧ column < columns := by
  unfold nextStep
  by_cases hboth : row < rows ∧ column < columns
  · by_cases hsame : same row column = true
    · exact .inl ⟨by rw [if_pos hboth, if_pos hsame], hboth.1, hboth.2, hsame⟩
    · rw [if_pos hboth, if_neg hsame]
      split
      · exact .inr (.inl ⟨rfl, hboth.1⟩)
      · exact .inr (.inr ⟨rfl, hboth.2⟩)
  · rw [if_neg hboth]
    by_cases hrow : row < rows
    · exact .inr (.inl ⟨if_pos hrow, hrow⟩)
    · exact .inr (.inr ⟨if_neg hrow, h.resolve_left hrow⟩)

theorem stepsFrom_path (longest : Array Nat) {rows columns : Nat} {same : Nat → Nat → Bool} {a b : Nat}
    (hsame : ∀ row column, same row column = true → f (a + row) = g (b + column)) {left : Nat}
    {row column : Nat} (hrow : row ≤ rows) (hcolumn : column ≤ columns)
    (hleft : (rows - row) + (columns - column) ≤ left) :
    Path f g (a + row) (b + column) (stepsFrom longest rows columns same left row column)
      (a + rows) (b + columns) := by
  induction left generalizing row column with
  | zero =>
    refine ⟨?_, ?_⟩
    · omega
    · omega
  | succ left ih =>
    unfold stepsFrom
    by_cases hmore : row < rows ∨ column < columns
    · rw [if_pos hmore]
      rcases nextStep_cases longest same hmore with ⟨hstep, hr, hc, hs⟩ | ⟨hstep, hr⟩ | ⟨hstep, hc⟩
      all_goals
        rw [hstep]
        refine ⟨fun hk => ?_, ?_⟩
      · exact hsame row column hs
      · exact ih hr hc (by omega)
      · cases hk
      · exact ih hr hcolumn (by omega)
      · cases hk
      · exact ih hrow hc (by omega)
    · rw [if_neg hmore]
      refine ⟨?_, ?_⟩
      · omega
      · omega

/-- Each place counted passes. -/
theorem countWhile_range {n : Nat} {p : Nat → Bool} :
    countWhile (List.range n) p ≤ n ∧ ∀ i < countWhile (List.range n) p, p i = true := by
  have hprefix := List.takeWhile_prefix p (l := List.range n)
  have hle := hprefix.length_le
  rw [List.length_range] at hle
  refine ⟨hle, fun i hi => ?_⟩
  have hget := hprefix.getElem (i := i) hi
  rw [List.getElem_range] at hget
  have hmem := List.mem_takeWhile_imp (List.getElem_mem (l := (List.range n).takeWhile p) hi)
  rwa [hget] at hmem

theorem countWhile_range' {n : Nat} {p : Nat → Bool} :
    countWhile (List.range' 1 n) p ≤ n ∧
      ∀ i, 1 ≤ i → i ≤ countWhile (List.range' 1 n) p → p i = true := by
  have hshift : countWhile (List.range' 1 n) p = countWhile (List.range n) fun i => p (i + 1) := by
    rw [List.range'_eq_map_range, countWhile, countWhile, List.takeWhile_map, List.length_map]
    congr 2
    funext i
    exact congrArg p (Nat.add_comm 1 i)
  obtain ⟨hle, hall⟩ := countWhile_range (n := n) (p := fun i => p (i + 1))
  refine ⟨hshift ▸ hle, fun i hpos hi => ?_⟩
  have := hall (i - 1) (by omega)
  rwa [show i - 1 + 1 = i by omega] at this

theorem head_spec (planned today : Read) :
    head planned today ≤ min planned.words.length today.words.length ∧
      ∀ i < head planned today, planned.word i = today.word i := by
  obtain ⟨hle, hall⟩ := countWhile_range (n := min planned.words.length today.words.length)
    (p := fun place => planned.word place == today.word place)
  exact ⟨hle, fun i hi => by simpa using hall i hi⟩

theorem tail_spec (planned today : Read) :
    tail planned today ≤
        min (planned.words.length - head planned today) (today.words.length - head planned today) ∧
      ∀ i < tail planned today,
        planned.word (planned.words.length - 1 - i) = today.word (today.words.length - 1 - i) := by
  obtain ⟨hle, hall⟩ := countWhile_range
    (n := min (planned.words.length - head planned today) (today.words.length - head planned today))
    (p := fun back => planned.word (planned.words.length - 1 - back) ==
      today.word (today.words.length - 1 - back))
  exact ⟨hle, fun i hi => by simpa using hall i hi⟩

/-- The words between what the codes open with and what they close with are gone past step by step. -/
theorem steps_path (planned today : Read) {a b c : Nat} (hb : a ≤ b) (hc : a ≤ c) :
    Path planned.word today.word a a (steps planned today ⟨a, b⟩ ⟨a, c⟩) b c := by
  have h := stepsFrom_path (f := planned.word) (g := today.word) (a := a) (b := a)
    (longestTable (b - a) (c - a) fun row column =>
      planned.word (a + row) == today.word (a + column)) (fun row column h => eq_of_beq h)
    (Nat.zero_le (b - a)) (Nat.zero_le (c - a)) (Nat.le_refl (b - a + (c - a)))
  rw [show a + (b - a) = b by omega, show a + (c - a) = c by omega] at h
  exact h

/-- The runs of two codes lined up tile the words of both. -/
theorem aligned_lined {planned today : Read} {runs : List Run} (h : aligned planned today = some runs) :
    Lined planned.word today.word (0, 0) runs (planned.words.length, today.words.length) := by
  obtain ⟨hhead, hopen⟩ := head_spec planned today
  obtain ⟨htail, hclose⟩ := tail_spec planned today
  unfold aligned at h
  dsimp only at h
  generalize head planned today = opened at *
  generalize tail planned today = closed at *
  split_ifs at h
  cases h
  have hfirst : Lined planned.word today.word (0, 0) [⟨⟨0, opened⟩, ⟨0, opened⟩, true⟩]
      (opened, opened) := by
    refine ⟨rfl, ⟨Nat.zero_le _, Nat.zero_le _, fun _ => rfl, fun _ i hi => ?_⟩, rfl⟩
    have hi' : 0 + i < opened := hi
    simpa using hopen i (by omega)
  obtain ⟨hlined, hreached⟩ := stepped_lined hfirst (steps_path planned today
    (b := planned.words.length - closed) (c := today.words.length - closed) (by omega) (by omega))
  rw [hreached]
  refine joined_lined hlined ⟨Nat.sub_le _ _, Nat.sub_le _ _, fun _ => ?_, fun _ i hi => ?_⟩
  · dsimp only
    omega
  · -- What the two close with is read from the end.
    dsimp only at hi ⊢
    have hsame := hclose (closed - 1 - i) (by omega)
    rwa [show planned.words.length - 1 - (closed - 1 - i) = planned.words.length - closed + i by omega,
      show today.words.length - 1 - (closed - 1 - i) = today.words.length - closed + i by omega] at hsame

/-! ## Changes inside -/

theorem joined_ne_nil (runs : List Run) (planned today : Span) (kept : Bool) :
    joined runs planned today kept ≠ [] := by
  unfold joined
  cases runs.getLast? with
  | none => simp
  | some last =>
    dsimp only
    split_ifs <;> simp

/-- The first run stays of the kind it is of. -/
theorem head?_joined {runs : List Run} (hne : runs ≠ []) (planned today : Span) (kept : Bool) :
    (joined runs planned today kept).head?.map (·.kept) = runs.head?.map (·.kept) := by
  obtain ⟨first, rest, rfl⟩ := List.exists_cons_of_ne_nil hne
  unfold joined
  cases hlast : (first :: rest).getLast? with
  | none => simp
  | some last =>
    dsimp only
    split_ifs with hkept
    · cases rest with
      | nil =>
        obtain rfl : first = last := by simpa using hlast
        simp [hkept]
      | cons second rest => simp
    · simp

theorem getLast?_joined (runs : List Run) (planned today : Span) (kept : Bool) :
    (joined runs planned today kept).getLast?.map (·.kept) = some kept := by
  unfold joined
  cases runs.getLast? with
  | none => simp
  | some last =>
    dsimp only
    split_ifs <;> simp

theorem stepped_head? (path : List Step) {held : List Run × Nat × Nat} (hne : held.1 ≠ []) :
    (path.foldl stepped held).1 ≠ [] ∧
      (path.foldl stepped held).1.head?.map (·.kept) = held.1.head?.map (·.kept) := by
  induction path generalizing held with
  | nil => exact ⟨hne, rfl⟩
  | cons step rest ih =>
    have hstep : (stepped held step).1 ≠ [] := joined_ne_nil _ _ _ _
    obtain ⟨hne', hhead⟩ := ih hstep
    exact ⟨hne', hhead.trans (head?_joined hne _ _ _)⟩

/-- Between what is kept at either end, each change stands between two runs. -/
theorem inside_of_ends {runs : List Run} (hfirst : runs.head?.map (·.kept) = some true)
    (hlast : runs.getLast?.map (·.kept) = some true) : Inside runs := by
  intro place run hrun hchange
  have hlt : place < runs.length := (List.getElem?_eq_some_iff.mp hrun).1
  refine ⟨Nat.pos_of_ne_zero fun hzero => ?_, Nat.lt_of_le_of_ne hlt fun hend => ?_⟩
  · rw [hzero, ← List.head?_eq_getElem?] at hrun
    rw [hrun] at hfirst
    simp [hchange] at hfirst
  · rw [show place = runs.length - 1 by omega, ← List.getLast?_eq_getElem?] at hrun
    rw [hrun] at hlast
    simp [hchange] at hlast

theorem aligned_inside {planned today : Read} {runs : List Run} (h : aligned planned today = some runs) :
    Inside runs := by
  unfold aligned at h
  dsimp only at h
  split_ifs at h
  cases h
  have hopen : ([⟨⟨0, head planned today⟩, ⟨0, head planned today⟩, true⟩], head planned today,
      head planned today).1 ≠ ([] : List Run) := List.cons_ne_nil _ _
  obtain ⟨hne, hhead⟩ := stepped_head? (steps planned today
    ⟨head planned today, planned.words.length - tail planned today⟩
    ⟨head planned today, today.words.length - tail planned today⟩) hopen
  exact inside_of_ends ((head?_joined hne _ _ _).trans hhead) (getLast?_joined _ _ _ _)

end Yunta.Diff
