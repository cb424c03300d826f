/-
  A change moved to where it reads best, and short stretches kept taken into one.

  1. **Sliding** — a change moves only past words its two ends say alike.  The crux is
     `movedRuns_lined`: the kept runs beside it give or take exactly these, in both codes.

  2. **Places** — how far a change moves is what the runs beside it can give (`roomBack_spec`,
     `roomAhead_spec`), and it moves no farther (`bestPlace_mem`).

  3. **Cleaning** — a kept run and the changes around it as one change tile what they did, and the
     rounds there are words for leave none to take in (`cleaned_done`).
-/
import Yunta.Code.LinedUp

set_option linter.unusedVariables false

namespace Yunta.Diff

open Spans

variable {f g : Nat → List Char}

/-! ## Sliding -/

/-- A bound moved as far as a change that starts at `target` instead of `source`. -/
def moved (source target bound : Nat) : Nat := bound + target - source

/-- The change in the middle moved, with the bounds of the runs beside it. -/
def movedRuns (source target : Nat) (before run after : Run) : List Run :=
  [{ before with
      planned := ⟨before.planned.start, moved source target before.planned.stop⟩
      today := ⟨before.today.start, moved source target before.today.stop⟩ },
    { run with
      planned := ⟨moved source target run.planned.start, moved source target run.planned.stop⟩
      today := ⟨moved source target run.today.start, moved source target run.today.stop⟩ },
    { after with
      planned := ⟨moved source target after.planned.start, after.planned.stop⟩
      today := ⟨moved source target after.today.start, after.today.stop⟩ }]

theorem modify_append_right {α : Type} (front l : List α) (i : Nat) (f : α → α) :
    (front ++ l).modify (front.length + i) f = front ++ l.modify i f := by
  induction front with
  | nil => simp
  | cons a front ih =>
    rw [List.length_cons, Nat.add_right_comm, List.cons_append, List.modify_succ_cons, ih]
    rfl

theorem shift_eq (front back : List Run) (before run after : Run) (source target : Nat) :
    shift (front ++ (before :: run :: after :: back)) (front.length + 1) source target =
      front ++ (movedRuns source target before run after ++ back) := by
  unfold shift
  dsimp only
  rw [if_neg (show ¬ front.length + 1 = 0 by omega),
    show front.length + 1 - 1 = front.length + 0 from rfl, modify_append_right, modify_append_right,
    show front.length + 1 + 1 = front.length + 2 from rfl, modify_append_right]
  rfl

section Moved

variable {lo hi : Nat × Nat} {a a' b b' p p' t : Nat} {kept kept' : Bool}

/-- A change to the first code alone moved `by` words back, past words of the kept run before it. -/
theorem movedBack_lined (past : Nat) (hpast : past ≤ p)
    (h : Lined f g lo [⟨⟨a, p⟩, ⟨b, t⟩, kept⟩, ⟨⟨p, p'⟩, ⟨t, t⟩, false⟩, ⟨⟨p', a'⟩, ⟨t, b'⟩, kept'⟩] hi)
    (hback : ∀ k, 1 ≤ k → k ≤ past → kept = true ∧ k ≤ p - a ∧ f (p - k) = f (p' - k)) :
    Lined f g lo [⟨⟨a, p - past⟩, ⟨b, t - past⟩, kept⟩, ⟨⟨p - past, p' - past⟩, ⟨t - past, t - past⟩, false⟩,
      ⟨⟨p' - past, a'⟩, ⟨t - past, b'⟩, kept'⟩] hi := by
  obtain ⟨hlo, hbefore, -, hrun, -, hafter, hhi⟩ := h
  have hplanned : a ≤ p := hbefore.planned
  have htoday : b ≤ t := hbefore.today
  have hwords : p ≤ p' := hrun.planned
  have hafterPlanned : p' ≤ a' := hafter.planned
  have hafterToday : t ≤ b' := hafter.today
  rcases Nat.eq_zero_or_pos past with rfl | hpos
  · exact ⟨hlo, hbefore, rfl, hrun, rfl, hafter, hhi⟩
  obtain ⟨rfl, hroom, -⟩ := hback past hpos le_rfl
  have hlength : p + b = t + a := hbefore.length rfl
  refine ⟨hlo, ⟨?_, ?_, fun _ => ?_, fun _ i hi => ?_⟩, rfl, ⟨?_, le_rfl, ?_, ?_⟩, rfl,
    ⟨?_, ?_, fun hk => ?_, fun hk i hi => ?_⟩, hhi⟩
  · show a ≤ p - past
    omega
  · show b ≤ t - past
    omega
  · show p - past + b = t - past + a
    omega
  · have hi' : a + i < p - past := hi
    exact hbefore.same rfl i (show a + i < p by omega)
  · show p - past ≤ p' - past
    omega
  · exact fun hk => absurd hk Bool.false_ne_true
  · exact fun hk => absurd hk Bool.false_ne_true
  · show p' - past ≤ a'
    omega
  · show t - past ≤ b'
    omega
  · have hlength' : a' + t = b' + p' := hafter.length hk
    show a' + (t - past) = b' + (p' - past)
    omega
  · show f (p' - past + i) = g (t - past + i)
    by_cases hgiven : i < past
    · -- The words moved past: said alike at the two ends of the change.
      obtain ⟨-, -, hends⟩ := hback (past - i) (by omega) (by omega)
      have hsame : f (a + (p - (past - i) - a)) = g (b + (p - (past - i) - a)) :=
        hbefore.same rfl _ (show a + (p - (past - i) - a) < p by omega)
      rw [show p' - past + i = p' - (past - i) by omega, ← hends,
        show t - past + i = b + (p - (past - i) - a) by omega, ← hsame]
      exact congrArg f (by omega)
    · have hi' : p' - past + i < a' := hi
      have hsame : f (p' + (i - past)) = g (t + (i - past)) :=
        hafter.same hk _ (show p' + (i - past) < a' by omega)
      rwa [show p' - past + i = p' + (i - past) by omega, show t - past + i = t + (i - past) by omega]

/-- The same, moved ahead past words of the kept run after it. -/
theorem movedAhead_lined (past : Nat)
    (h : Lined f g lo [⟨⟨a, p⟩, ⟨b, t⟩, kept⟩, ⟨⟨p, p'⟩, ⟨t, t⟩, false⟩, ⟨⟨p', a'⟩, ⟨t, b'⟩, kept'⟩] hi)
    (hahead : ∀ k < past, kept' = true ∧ k < a' - p' ∧ f (p' + k) = f (p + k)) :
    Lined f g lo [⟨⟨a, p + past⟩, ⟨b, t + past⟩, kept⟩, ⟨⟨p + past, p' + past⟩, ⟨t + past, t + past⟩, false⟩,
      ⟨⟨p' + past, a'⟩, ⟨t + past, b'⟩, kept'⟩] hi := by
  obtain ⟨hlo, hbefore, -, hrun, -, hafter, hhi⟩ := h
  have hplanned : a ≤ p := hbefore.planned
  have htoday : b ≤ t := hbefore.today
  have hwords : p ≤ p' := hrun.planned
  have hafterPlanned : p' ≤ a' := hafter.planned
  have hafterToday : t ≤ b' := hafter.today
  rcases Nat.eq_zero_or_pos past with rfl | hpos
  · exact ⟨hlo, hbefore, rfl, hrun, rfl, hafter, hhi⟩
  obtain ⟨rfl, hroom, -⟩ := hahead (past - 1) (by omega)
  have hlength : a' + t = b' + p' := hafter.length rfl
  refine ⟨hlo, ⟨?_, ?_, fun hk => ?_, fun hk i hi => ?_⟩, rfl, ⟨?_, le_rfl, ?_, ?_⟩, rfl,
    ⟨?_, ?_, fun _ => ?_, fun _ i hi => ?_⟩, hhi⟩
  · show a ≤ p + past
    omega
  · show b ≤ t + past
    omega
  · have hlength' : p + b = t + a := hbefore.length hk
    show p + past + b = t + past + a
    omega
  · show f (a + i) = g (b + i)
    have hi' : a + i < p + past := hi
    have hlength' : p + b = t + a := hbefore.length hk
    by_cases hheld : a + i < p
    · exact hbefore.same hk i hheld
    · -- The words moved past: said alike at the two ends of the change.
      obtain ⟨-, -, hends⟩ := hahead (a + i - p) (by omega)
      have hsame : f (p' + (a + i - p)) = g (t + (a + i - p)) :=
        hafter.same rfl _ (show p' + (a + i - p) < a' by omega)
      rw [show a + i = p + (a + i - p) by omega, ← hends, hsame]
      exact congrArg g (by omega)
  · show p + past ≤ p' + past
    omega
  · exact fun hk => absurd hk Bool.false_ne_true
  · exact fun hk => absurd hk Bool.false_ne_true
  · show p' + past ≤ a'
    omega
  · show t + past ≤ b'
    omega
  · show a' + (t + past) = b' + (p' + past)
    omega
  · show f (p' + past + i) = g (t + past + i)
    have hi' : p' + past + i < a' := hi
    have hsame : f (p' + (past + i)) = g (t + (past + i)) :=
      hafter.same rfl _ (show p' + (past + i) < a' by omega)
    rwa [Nat.add_assoc, Nat.add_assoc]

end Moved

/-- What a kept run gives: words it holds. -/
theorem room_spec {runs : List Run} {place : Nat} (run : Run) (h : runs[place]? = some run) {k : Nat}
    (hpos : 0 < k) (hk : k ≤ room runs (some place)) :
    run.kept = true ∧ k ≤ run.planned.stop - run.planned.start := by
  simp only [room, h, Option.filter_some] at hk
  cases hkept : run.kept with
  | false =>
    rw [hkept] at hk
    exact absurd (Nat.lt_of_lt_of_le hpos hk) (Nat.lt_irrefl 0)
  | true =>
    rw [if_pos hkept] at hk
    exact ⟨rfl, Nat.le_trans hk (Nat.sub_le _ _)⟩

/-- A choice among some places, of which the first stands for none better, is one of them. -/
theorem bestPlace_mem (runs : List Run) (place : Nat) (read : Read) (words : Span) :
    words.start - roomBack runs place read words ≤ bestPlace runs place read words ∧
      bestPlace runs place read words ≤
        words.start - roomBack runs place read words +
          (roomBack runs place read words + roomAhead runs place read words) := by
  have hfold : ∀ (l : List Nat) (p : Nat → Prop) (fits : Nat → Nat) (best : Nat), p best →
      (∀ start ∈ l, p start) →
      p (l.foldl (fun best start => if fits best ≤ fits start then start else best) best) := by
    intro l p fits
    induction l with
    | nil => exact fun best hbest _ => hbest
    | cons start rest ih =>
      intro best hbest hall
      refine ih _ ?_ fun other hother => hall other (List.mem_cons_of_mem _ hother)
      show p (if fits best ≤ fits start then start else best)
      split_ifs
      · exact hall start List.mem_cons_self
      · exact hbest
  refine hfold _ (fun start => words.start - roomBack runs place read words ≤ start ∧
    start ≤ words.start - roomBack runs place read words +
      (roomBack runs place read words + roomAhead runs place read words)) _ _
    ⟨le_rfl, Nat.le_add_right _ _⟩ fun start hstart => ?_
  obtain ⟨hlo, hhi⟩ := List.mem_range'_1.mp hstart
  exact ⟨hlo, by omega⟩

theorem roomBack_spec {front back : List Run} {before run after : Run} {read : Read} {words : Span}
    {k : Nat} (hpos : 1 ≤ k)
    (hk : k ≤ roomBack (front ++ before :: run :: after :: back) (front.length + 1) read words) :
    before.kept = true ∧ k ≤ before.planned.stop - before.planned.start ∧
      read.word (words.start - k) = read.word (words.stop - k) := by
  unfold roomBack at hk
  rw [if_neg (show ¬ front.length + 1 = 0 by omega), Nat.add_sub_cancel] at hk
  obtain ⟨hle, hall⟩ := countWhile_range'
    (n := room (front ++ before :: run :: after :: back) (some front.length))
    (p := fun past => read.word (words.start - past) == read.word (words.stop - past))
  obtain ⟨hkept, hroom⟩ := room_spec before (by simp) hpos (Nat.le_trans hk hle)
  exact ⟨hkept, hroom, eq_of_beq (hall k hpos hk)⟩

theorem roomAhead_spec {front back : List Run} {before run after : Run} {read : Read} {words : Span}
    {k : Nat}
    (hk : k < roomAhead (front ++ before :: run :: after :: back) (front.length + 1) read words) :
    after.kept = true ∧ k < after.planned.stop - after.planned.start ∧
      read.word (words.stop + k) = read.word (words.start + k) := by
  unfold roomAhead at hk
  obtain ⟨hle, hall⟩ := countWhile_range
    (n := room (front ++ before :: run :: after :: back) (some (front.length + 1 + 1)))
    (p := fun past => read.word (words.stop + past) == read.word (words.start + past))
  obtain ⟨hkept, hroom⟩ := room_spec after (by rw [Nat.add_assoc]; simp) (Nat.succ_pos k)
    (Nat.le_trans hk hle)
  exact ⟨hkept, hroom, eq_of_beq (hall k hk)⟩

/-- **Sliding keeps the codes lined up.**  A change to the first code alone, moved as far back or ahead
    as its two ends say alike what the kept runs beside it give. -/
theorem movedRuns_lined {lo hi : Nat × Nat} {before run after : Run} {past next target : Nat}
    (h : Lined f g lo [before, run, after] hi) (hchange : run.kept = false)
    (hempty : run.today.stop ≤ run.today.start)
    (hlo : run.planned.start - past ≤ target) (hhi : target ≤ run.planned.start - past + (past + next))
    (hback : ∀ k, 1 ≤ k → k ≤ past → before.kept = true ∧
      k ≤ before.planned.stop - before.planned.start ∧
      f (run.planned.start - k) = f (run.planned.stop - k))
    (hahead : ∀ k < next, after.kept = true ∧ k < after.planned.stop - after.planned.start ∧
      f (run.planned.stop + k) = f (run.planned.start + k)) :
    Lined f g lo (movedRuns run.planned.start target before run after) hi := by
  have htiles := h
  obtain ⟨-, hbefore, hmid, hrun, hmid', -, -⟩ := h
  obtain ⟨⟨a, p⟩, ⟨b, t⟩, kept⟩ := before
  obtain ⟨⟨q, p'⟩, ⟨t', t''⟩, change⟩ := run
  obtain ⟨⟨q', a'⟩, ⟨u, b'⟩, kept'⟩ := after
  obtain ⟨rfl, rfl⟩ := Prod.mk.inj hmid
  obtain ⟨rfl, rfl⟩ := Prod.mk.inj hmid'
  obtain rfl : change = false := hchange
  obtain rfl : t' = u := Nat.le_antisymm hrun.today hempty
  dsimp only at hlo hhi hback hahead
  have hstart : past ≤ q := by
    rcases Nat.eq_zero_or_pos past with rfl | hpos
    · exact Nat.zero_le q
    · obtain ⟨-, hroom, -⟩ := hback past hpos le_rfl
      omega
  rcases Nat.le_total target q with hle | hge
  · have hmoved := movedBack_lined (q - target) (Nat.sub_le _ _) htiles fun k hpos hk =>
      hback k hpos (by omega)
    have hshift : ∀ bound, moved q target bound = bound - (q - target) := fun bound => by
      show bound + target - q = bound - (q - target)
      omega
    simpa only [movedRuns, hshift] using hmoved
  · have hmoved := movedAhead_lined (target - q) htiles fun k hk => hahead k (by omega)
    have hshift : ∀ bound, moved q target bound = bound + (target - q) := fun bound => by
      show bound + target - q = bound + (target - q)
      omega
    simpa only [movedRuns, hshift] using hmoved

/-- A run read with either code for the other. -/
def Run.swapped (run : Run) : Run := ⟨run.today, run.planned, run.kept⟩

theorem Run.Ok.swapped {run : Run} (h : run.Ok f g) : run.swapped.Ok g f := by
  refine ⟨h.today, h.planned, fun hk => ?_, fun hk i hi => ?_⟩
  · have hlength := h.length hk
    show run.today.stop + run.planned.start = run.planned.stop + run.today.start
    omega
  · have hlength := h.length hk
    have hi' : run.today.start + i < run.today.stop := hi
    exact (h.same hk i (by omega)).symm

theorem Lined.swapped {lo hi : Nat × Nat} {runs : List Run} (h : Lined f g lo runs hi) :
    Lined g f lo.swap (runs.map Run.swapped) hi.swap := by
  induction runs generalizing lo with
  | nil => exact congrArg Prod.swap h
  | cons run rest ih =>
    obtain ⟨hlo, hrun, hrest⟩ := h
    exact ⟨congrArg Prod.swap hlo, hrun.swapped, ih hrest⟩

/-- A change to the second code alone moves the same way. -/
theorem movedRuns_lined_today {lo hi : Nat × Nat} {before run after : Run} {past next target : Nat}
    (h : Lined f g lo [before, run, after] hi) (hchange : run.kept = false)
    (hempty : run.planned.stop ≤ run.planned.start)
    (hlo : run.today.start - past ≤ target) (hhi : target ≤ run.today.start - past + (past + next))
    (hback : ∀ k, 1 ≤ k → k ≤ past → before.kept = true ∧
      k ≤ before.planned.stop - before.planned.start ∧
      g (run.today.start - k) = g (run.today.stop - k))
    (hahead : ∀ k < next, after.kept = true ∧ k < after.planned.stop - after.planned.start ∧
      g (run.today.stop + k) = g (run.today.start + k)) :
    Lined f g lo (movedRuns run.today.start target before run after) hi := by
  have hbefore : before.Ok f g := h.mem (List.mem_cons_self ..)
  have hafter : after.Ok f g := h.mem (by simp)
  have hswapped : Lined g f lo.swap [before.swapped, run.swapped, after.swapped] hi.swap := h.swapped
  have hmoved := movedRuns_lined hswapped hchange hempty hlo hhi
    (fun k hpos hk => by
      obtain ⟨hkept, hroom, hends⟩ := hback k hpos hk
      have hlength := hbefore.length hkept
      exact ⟨hkept, show k ≤ before.today.stop - before.today.start by omega, hends⟩)
    (fun k hk => by
      obtain ⟨hkept, hroom, hends⟩ := hahead k hk
      have hlength := hafter.length hkept
      exact ⟨hkept, show k < after.today.stop - after.today.start by omega, hends⟩)
  exact hmoved.swapped

/-- A run inside has a run on either side. -/
theorem exists_beside {runs : List Run} {place : Nat} {run : Run} (h : runs[place]? = some run)
    (hpos : 0 < place) (hlt : place + 1 < runs.length) :
    ∃ front before after back, runs = front ++ before :: run :: after :: back ∧
      place = front.length + 1 := by
  obtain ⟨hplace, hrun⟩ := List.getElem?_eq_some_iff.mp h
  refine ⟨runs.take (place - 1), runs[place - 1], runs[place + 1], runs.drop (place + 2), ?_, ?_⟩
  · conv_lhs => rw [← List.take_append_drop (place - 1) runs]
    rw [List.drop_eq_getElem_cons (show place - 1 < runs.length by omega),
      List.drop_eq_getElem_cons (show place - 1 + 1 < runs.length by omega),
      List.drop_eq_getElem_cons (show place - 1 + 1 + 1 < runs.length by omega)]
    simp only [show place - 1 + 1 = place by omega, hrun]
  · rw [List.length_take]
    omega

/-- Whether a change stands between two runs is told by which runs are kept. -/
theorem inside_of_kinds {runs runs' : List Run} (h : runs'.map (·.kept) = runs.map (·.kept))
    (hin : Inside runs) : Inside runs' := by
  intro place run hrun hchange
  have hlength : runs'.length = runs.length := by simpa using congrArg List.length h
  have hkind : (runs.map (·.kept))[place]? = some false := by
    rw [← h, List.getElem?_map, hrun, Option.map_some, hchange]
  rw [List.getElem?_map] at hkind
  obtain ⟨other, hother, hkept⟩ := Option.map_eq_some_iff.mp hkind
  exact hlength ▸ hin place other hother hkept

theorem kinds_shift (front back : List Run) (before run after : Run) (source target : Nat) :
    (front ++ (movedRuns source target before run after ++ back)).map (·.kept) =
      (front ++ before :: run :: after :: back).map (·.kept) := by
  simp [movedRuns]

/-- A change where it reads best leaves the codes lined up. -/
theorem slidAt_lined {planned today : Read} {lo hi : Nat × Nat} {runs : List Run}
    (h : Lined planned.word today.word lo runs hi) (hin : Inside runs) (place : Nat) :
    Lined planned.word today.word lo (slidAt planned today runs place) hi ∧
      Inside (slidAt planned today runs place) := by
  unfold slidAt
  cases hrun : runs[place]? with
  | none => exact ⟨h, hin⟩
  | some run =>
    dsimp only
    by_cases hkept : run.kept = true
    · simp only [hkept, Bool.not_true, Bool.false_and, Bool.false_eq_true, if_false]
      exact ⟨h, hin⟩
    · have hchange : run.kept = false := by simpa using hkept
      obtain ⟨hpos, hlt⟩ := hin place run hrun hchange
      obtain ⟨front, before, after, back, rfl, rfl⟩ := exists_beside hrun hpos hlt
      split_ifs with hadds htakes
      · -- Words put in: they move in the planned code.
        rw [shift_eq]
        refine ⟨Tiles.splice [before, run, after] h fun a b htiles => ?_,
          inside_of_kinds (kinds_shift ..) hin⟩
        obtain ⟨hstart, hstop⟩ := bestPlace_mem (front ++ before :: run :: after :: back)
          (front.length + 1) planned run.planned
        exact movedRuns_lined htiles hchange (by simp [isEmpty, hchange] at hadds; exact hadds.2)
          hstart hstop (fun k => roomBack_spec) fun k => roomAhead_spec
      · -- Words taken out: they move in today's.
        rw [shift_eq]
        refine ⟨Tiles.splice [before, run, after] h fun a b htiles => ?_,
          inside_of_kinds (kinds_shift ..) hin⟩
        obtain ⟨hstart, hstop⟩ := bestPlace_mem (front ++ before :: run :: after :: back)
          (front.length + 1) today run.today
        exact movedRuns_lined_today htiles hchange (by simp [isEmpty, hchange] at htakes; exact htakes.1)
          hstart hstop (fun k => roomBack_spec) fun k => roomAhead_spec
      · exact ⟨h, hin⟩

/-- Every change where it reads best. -/
theorem slid_lined {planned today : Read} {lo hi : Nat × Nat} {runs : List Run}
    (h : Lined planned.word today.word lo runs hi) (hin : Inside runs) :
    Lined planned.word today.word lo (slid runs planned today) hi ∧
      Inside (slid runs planned today) := by
  have hfold : ∀ (places : List Nat) (runs : List Run), Lined planned.word today.word lo runs hi →
      Inside runs → Lined planned.word today.word lo (places.foldl (slidAt planned today) runs) hi ∧
        Inside (places.foldl (slidAt planned today) runs) := by
    intro places
    induction places with
    | nil => exact fun runs h hin => ⟨h, hin⟩
    | cons place rest ih =>
      intro runs h hin
      obtain ⟨h', hin'⟩ := slidAt_lined h hin place
      exact ih _ h' hin'
  exact hfold _ runs h hin

/-! ## Cleaning -/

/-- A run taken in has a run on either side. -/
theorem absorbed_beside {runs : List Run} {planned today : Read} {place : Nat} (hpos : 1 ≤ place)
    (h : absorbed runs planned today place = true) :
    ∃ front before kept after back, runs = front ++ before :: kept :: after :: back ∧
      place = front.length + 1 ∧ before.kept = false := by
  unfold absorbed at h
  cases hbefore : runs[place - 1]? with
  | none => simp [hbefore] at h
  | some first =>
    cases hkept : runs[place]? with
    | none => simp [hbefore, hkept] at h
    | some kept =>
      cases hafter : runs[place + 1]? with
      | none => simp [hbefore, hkept, hafter] at h
      | some last =>
        obtain ⟨hlt, -⟩ := List.getElem?_eq_some_iff.mp hafter
        obtain ⟨front, before, after, back, rfl, rfl⟩ := exists_beside hkept hpos hlt
        obtain rfl : before = first := by simpa using hbefore
        refine ⟨front, before, kept, after, back, rfl, rfl, ?_⟩
        cases hchange : before.kept with
        | false => rfl
        | true => simp [hafter, hchange] at h

theorem absorb_eq (front back : List Run) (before kept after : Run) :
    absorb (front ++ before :: kept :: after :: back) (front.length + 1) =
      front ++ ([{ before with
        planned := ⟨before.planned.start, after.planned.stop⟩
        today := ⟨before.today.start, after.today.stop⟩ }] ++ back) := by
  have hafter : (front ++ before :: kept :: after :: back)[front.length + 1 + 1]? = some after := by
    rw [Nat.add_assoc]
    simp
  have herase : ((front ++ before :: kept :: after :: back).eraseIdx (front.length + 1 + 1)).eraseIdx
      (front.length + 1) = front ++ before :: back := by
    rw [List.eraseIdx_append_of_length_le (by omega), List.eraseIdx_append_of_length_le (by omega),
      show front.length + 1 + 1 - front.length = 2 by omega,
      show front.length + 1 - front.length = 1 by omega]
    rfl
  unfold absorb
  rw [hafter]
  dsimp only
  rw [herase, Nat.add_sub_cancel, show front.length = front.length + 0 from rfl, modify_append_right]
  rfl

/-- One change in the place of a kept run and the changes around it. -/
theorem absorb_lined {planned today : Read} {lo hi : Nat × Nat} {runs : List Run} {place : Nat}
    (hpos : 1 ≤ place) (habsorbed : absorbed runs planned today place = true)
    (h : Lined f g lo runs hi) : Lined f g lo (absorb runs place) hi := by
  obtain ⟨front, before, kept, after, back, rfl, rfl, hchange⟩ := absorbed_beside hpos habsorbed
  rw [absorb_eq]
  refine Tiles.splice [before, kept, after] h fun a b htiles => ?_
  obtain ⟨hlo, hbefore, hmid, hkept, hmid', hafter, hhi⟩ := htiles
  obtain ⟨hp, ht⟩ := Prod.mk.inj hmid
  obtain ⟨hp', ht'⟩ := Prod.mk.inj hmid'
  have hplanned := hbefore.planned
  have hplanned' := hkept.planned
  have hplanned'' := hafter.planned
  have htoday := hbefore.today
  have htoday' := hkept.today
  have htoday'' := hafter.today
  refine ⟨hlo, ⟨?_, ?_, fun hk => ?_, fun hk => ?_⟩, hhi⟩
  · show before.planned.start ≤ after.planned.stop
    omega
  · show before.today.start ≤ after.today.stop
    omega
  · exact absurd (hchange.symm.trans hk) Bool.false_ne_true
  · exact absurd (hchange.symm.trans hk) Bool.false_ne_true

theorem length_absorb {planned today : Read} {runs : List Run} {place : Nat} (hpos : 1 ≤ place)
    (habsorbed : absorbed runs planned today place = true) :
    (absorb runs place).length + 2 = runs.length := by
  obtain ⟨front, before, kept, after, back, rfl, rfl, -⟩ := absorbed_beside hpos habsorbed
  rw [absorb_eq]
  simp only [List.length_append, List.length_cons, List.length_nil]
  omega

section Rounds

variable {planned today : Read} {runs : List Run} {left : Nat}

theorem cleanedIn_of_none
    (h : (List.range' 1 (runs.length - 2)).find? (absorbed runs planned today) = none) :
    cleanedIn planned today (left + 1) runs = runs := by
  rw [cleanedIn, h]

theorem cleanedIn_of_some {place : Nat}
    (h : (List.range' 1 (runs.length - 2)).find? (absorbed runs planned today) = some place) :
    cleanedIn planned today (left + 1) runs = cleanedIn planned today left (absorb runs place) := by
  rw [cleanedIn, h]

/-- A run found to take in is one, and not the first. -/
theorem absorbed_of_found {place : Nat}
    (h : (List.range' 1 (runs.length - 2)).find? (absorbed runs planned today) = some place) :
    1 ≤ place ∧ absorbed runs planned today place = true :=
  ⟨(List.mem_range'_1.mp (List.mem_of_find?_eq_some h)).1, List.find?_some h⟩

theorem cleanedIn_lined {lo hi : Nat × Nat} (h : Lined f g lo runs hi) :
    Lined f g lo (cleanedIn planned today left runs) hi := by
  induction left generalizing runs with
  | zero => exact h
  | succ left ih =>
    cases hfound : (List.range' 1 (runs.length - 2)).find? (absorbed runs planned today) with
    | none =>
      rw [cleanedIn_of_none hfound]
      exact h
    | some place =>
      rw [cleanedIn_of_some hfound]
      obtain ⟨hpos, habsorbed⟩ := absorbed_of_found hfound
      exact ih (absorb_lined hpos habsorbed h)

theorem cleaned_lined {lo hi : Nat × Nat} (h : Lined f g lo runs hi) :
    Lined f g lo (cleaned runs planned today) hi :=
  cleanedIn_lined h

/-- With a round for every run, the rounds end because no run is left to take in. -/
theorem cleanedIn_done (hleft : runs.length ≤ left) :
    (List.range' 1 ((cleanedIn planned today left runs).length - 2)).find?
      (absorbed (cleanedIn planned today left runs) planned today) = none := by
  induction left generalizing runs with
  | zero =>
    obtain rfl := List.eq_nil_of_length_eq_zero (Nat.le_zero.mp hleft)
    rfl
  | succ left ih =>
    cases hfound : (List.range' 1 (runs.length - 2)).find? (absorbed runs planned today) with
    | none =>
      rw [cleanedIn_of_none hfound]
      exact hfound
    | some place =>
      rw [cleanedIn_of_some hfound]
      obtain ⟨hpos, habsorbed⟩ := absorbed_of_found hfound
      have hfewer := length_absorb hpos habsorbed
      exact ih (by omega)

end Rounds

/-- **No run is left to take in.** -/
theorem cleaned_done (runs : List Run) (planned today : Read) {place : Nat} (hpos : 1 ≤ place)
    (hlt : place + 1 < (cleaned runs planned today).length) :
    absorbed (cleaned runs planned today) planned today place = false := by
  have hnone := List.find?_eq_none.mp
    (cleanedIn_done (le_refl runs.length) : List.find? (absorbed (cleaned runs planned today) planned
      today) _ = none) place
  refine Bool.eq_false_iff.mpr (hnone (List.mem_range'_1.mpr ⟨hpos, ?_⟩))
  have hlt' : place + 1 < (cleanedIn planned today runs.length runs).length := hlt
  omega

end Yunta.Diff
