/-
  A plan's diff tells the truth.

  1. **One line** — marks that stand apart, in order, with what the line keeps between them, say the
     line again (`partsFrom_shown`); what comes out says nothing of it.

  2. **What goes in** — `onLines` stands in order and never past the end of a line, so the changes of
     runs that tile the words stand apart (`addedIn_inOrder`).

  3. **The whole** — `marks_true`: the lines say the planned code, the runs tile the words of both
     codes, what is kept is in both, and only codes that say the same are unchanged.
-/
import Mathlib.Data.List.Flatten
import Yunta.Code.Slid

set_option linter.unusedVariables false

namespace Yunta.Diff

open Spans

/-! ## One line -/

/-- What a part says of the planned code. -/
def Part.shown : Part → List Char
  | .kept said => said
  | .added said => said
  | .removed _ => []

/-- What a line's parts say of the planned code. -/
def shown (parts : List Part) : List Char := parts.flatMap Part.shown

/-- A mark that says what stands where it does, and ends with its line at the latest. -/
structure OnLine (text : List Char) (stop : Nat) (mark : Span × Part) : Prop where
  ordered : mark.1.start ≤ mark.1.stop
  within : mark.1.stop ≤ stop
  told : mark.2.shown = slice text mark.1

/-- Marks with what a line keeps between them say the line. -/
theorem partsFrom_shown {text : List Char} {stop reached : Nat} {marked : List (Span × Part)}
    (hreached : reached ≤ stop) (hon : ∀ mark ∈ marked, OnLine text stop mark)
    (hpast : ∀ mark ∈ marked, mark.1.start < mark.1.stop → reached ≤ mark.1.start)
    (hapart : marked.Pairwise fun a b => b.1.start < b.1.stop → a.1.stop ≤ b.1.start) :
    shown (partsFrom text stop reached marked) = slice text ⟨reached, stop⟩ := by
  induction marked generalizing reached with
  | nil =>
    unfold partsFrom
    split_ifs with hlt
    · exact List.append_nil _
    · exact (slice_nil text (by omega)).symm
  | cons mark rest ih =>
    obtain ⟨⟨start, stop'⟩, part⟩ := mark
    obtain ⟨hordered, hwithin, hsaid⟩ := hon _ List.mem_cons_self
    obtain ⟨hhead, hrest⟩ := List.pairwise_cons.mp hapart
    have hfirst := hpast _ List.mem_cons_self
    dsimp only at hordered hwithin hsaid hfirst hhead
    have hkept : shown (if reached < start then [.kept (slice text ⟨reached, start⟩)] else []) =
        slice text ⟨reached, start⟩ := by
      split_ifs with hlt
      · exact List.append_nil _
      · exact (slice_nil text (by omega)).symm
    have hreached' : max reached stop' ≤ stop := by omega
    have htail := ih hreached'
      (fun other hother => hon other (List.mem_cons_of_mem _ hother))
      (fun other hother hwide => by
        have hafter := hhead other hother hwide
        have hafter' := hpast other (List.mem_cons_of_mem _ hother) hwide
        omega) hrest
    have hmark : slice text ⟨reached, start⟩ ++ slice text ⟨start, stop'⟩ =
        slice text ⟨reached, max reached stop'⟩ := by
      rcases Nat.eq_or_lt_of_le hordered with rfl | hwide
      · rw [slice_nil text (le_refl start), List.append_nil]
        rcases Nat.le_total reached start with hle | hge
        · rw [Nat.max_eq_right hle]
        · rw [Nat.max_eq_left hge, slice_nil text hge, slice_nil text (le_refl reached)]
      · have hle := hfirst hwide
        rw [slice_append text hle hordered, Nat.max_eq_right (by omega)]
    calc shown (partsFrom text stop reached ((⟨start, stop'⟩, part) :: rest))
        = shown (if reached < start then [.kept (slice text ⟨reached, start⟩)] else []) ++
            (part.shown ++ shown (partsFrom text stop (max reached stop') rest)) := List.flatMap_append
      _ = slice text ⟨reached, start⟩ ++
            (slice text ⟨start, stop'⟩ ++ slice text ⟨max reached stop', stop⟩) := by
          rw [hkept, hsaid, htail]
      _ = slice text ⟨reached, stop⟩ := by
          rw [← List.append_assoc, hmark, slice_append text (Nat.le_max_left _ _) (by omega)]

instance : Std.Total earlier where
  total a b := by
    show (a.1.start < b.1.start ∨ a.1.start = b.1.start ∧ a.1.stop ≤ b.1.stop) ∨
      (b.1.start < a.1.start ∨ b.1.start = a.1.start ∧ b.1.stop ≤ a.1.stop)
    omega

instance : IsTrans (Span × Part) earlier where
  trans a b c hab hbc := by
    have hab' : a.1.start < b.1.start ∨ a.1.start = b.1.start ∧ a.1.stop ≤ b.1.stop := hab
    have hbc' : b.1.start < c.1.start ∨ b.1.start = c.1.start ∧ b.1.stop ≤ c.1.stop := hbc
    show a.1.start < c.1.start ∨ a.1.start = c.1.start ∧ a.1.stop ≤ c.1.stop
    omega

/-- Neither of two marks stands where the other goes on. -/
def Apart (a b : Span × Part) : Prop :=
  a.1.stop ≤ a.1.start ∨ b.1.stop ≤ b.1.start ∨ a.1.stop ≤ b.1.start ∨ b.1.stop ≤ a.1.start

theorem Apart.symm {a b : Span × Part} (h : Apart a b) : Apart b a := by
  have h' : a.1.stop ≤ a.1.start ∨ b.1.stop ≤ b.1.start ∨ a.1.stop ≤ b.1.start ∨
    b.1.stop ≤ a.1.start := h
  show b.1.stop ≤ b.1.start ∨ a.1.stop ≤ a.1.start ∨ b.1.stop ≤ a.1.start ∨ a.1.stop ≤ b.1.start
  omega

/-- Marks that stand apart, put in order: each that is wide starts after the ones before it end. -/
theorem sorted_apart {marked : List (Span × Part)} (hordered : ∀ mark ∈ marked, mark.1.start ≤ mark.1.stop)
    (hapart : marked.Pairwise Apart) :
    (marked.insertionSort earlier).Pairwise fun a b =>
      b.1.start < b.1.stop → a.1.stop ≤ b.1.start := by
  have hsorted := List.pairwise_insertionSort earlier marked
  have hapart' := ((List.perm_insertionSort earlier marked).symm.pairwise_iff
    (fun {a b} h => Apart.symm h)).mp hapart
  refine List.Pairwise.imp_of_mem (fun {a b} ha hb h hwide => ?_) (hsorted.and hapart')
  have hle := hordered a ((List.mem_insertionSort earlier).mp ha)
  obtain ⟨hearlier, happart⟩ := h
  have hearlier' : a.1.start < b.1.start ∨ a.1.start = b.1.start ∧ a.1.stop ≤ b.1.stop := hearlier
  have happart' : a.1.stop ≤ a.1.start ∨ b.1.stop ≤ b.1.start ∨ a.1.stop ≤ b.1.start ∨
    b.1.stop ≤ a.1.start := happart
  omega

/-- A stretch that holds no line end, and starts on a line, ends on it. -/
theorem stop_le_of_noMark {text : List Char} {line stretch : Span}
    (hend : line.stop = text.length ∨ text[line.stop]? = some '\n') (hstop : stretch.stop ≤ text.length)
    (hnone : '\n' ∉ slice text stretch) (hstart : stretch.start ≤ line.stop) :
    stretch.stop ≤ line.stop := by
  rcases hend with hend | hmark
  · exact hend ▸ hstop
  · exact Nat.le_of_not_lt fun hlt => hnone (mem_slice hmark hstart hlt)

/-- **A line's parts say the line.**  What is put in stands in order, and no stretch of it runs past
    a line. -/
theorem parts_shown {text : List Char} {line : Span} {added : List Span}
    (removed : List (Nat × List Char)) (hline : line.start ≤ line.stop)
    (hend : line.stop = text.length ∨ text[line.stop]? = some '\n')
    (hadded : InOrder 0 added text.length) (hnone : ∀ stretch ∈ added, '\n' ∉ slice text stretch) :
    shown (parts text line added removed) = slice text line := by
  have hmarks : ∀ mark ∈ marksOn text line added removed,
      OnLine text line.stop mark ∧ line.start ≤ mark.1.start := by
    intro mark hmark
    rcases List.mem_append.mp hmark with hmark | hmark
    · obtain ⟨out, hout, rfl⟩ := List.mem_map.mp hmark
      have hplace : line.start ≤ out.1 ∧ out.1 ≤ line.stop := by simpa using (List.mem_filter.mp hout).2
      exact ⟨⟨le_rfl, hplace.2, (slice_nil text le_rfl).symm⟩, hplace.1⟩
    · obtain ⟨stretch, hstretch, rfl⟩ := List.mem_map.mp hmark
      obtain ⟨hmem, hon⟩ := List.mem_filter.mp hstretch
      have hplace : line.start ≤ stretch.start ∧ stretch.start < line.stop := by simpa using hon
      obtain ⟨-, hordered, hstop⟩ := hadded.mem hmem
      exact ⟨⟨hordered, stop_le_of_noMark hend hstop (hnone stretch hmem) (Nat.le_of_lt hplace.2), rfl⟩,
        hplace.1⟩
  have hapart : (marksOn text line added removed).Pairwise Apart := by
    refine List.pairwise_append.mpr ⟨?_, ?_, fun a ha b hb => ?_⟩
    · exact List.pairwise_map.mpr (List.pairwise_of_forall fun _ _ => .inl le_rfl)
    · exact List.pairwise_map.mpr ((hadded.pairwise.filter _).imp fun h => .inr (.inr (.inl h)))
    · obtain ⟨out, -, rfl⟩ := List.mem_map.mp ha
      exact .inl le_rfl
  refine partsFrom_shown hline (fun mark hmark => ?_) (fun mark hmark _ => ?_)
    (sorted_apart (fun mark hmark => (hmarks mark hmark).1.ordered) hapart)
  · exact (hmarks mark ((List.mem_insertionSort earlier).mp hmark)).1
  · exact (hmarks mark ((List.mem_insertionSort earlier).mp hmark)).2

/-! ## What goes in -/

section OnLines

variable {read : Read} {lo hi : Nat}

theorem stretched_inOrder {stretches : List Span} {word : Span} (h : InOrder lo stretches word.start)
    (hword : word.start ≤ word.stop) : InOrder lo (read.stretched stretches word) word.stop := by
  unfold Read.stretched
  cases hlast : stretches.getLast? with
  | none =>
    obtain rfl := List.getLast?_eq_none_iff.mp hlast
    exact ⟨h.le, hword, le_rfl⟩
  | some stretch =>
    dsimp only
    split_ifs
    · exact inOrder_append.mpr ⟨word.start, h, le_rfl, hword, le_rfl⟩
    · -- The last stretch runs on to the word's end.
      rw [← List.dropLast_append_getLast? stretch hlast] at h
      obtain ⟨mid, hfront, hstart, hstretch, hend⟩ := inOrder_append.mp h
      have hend' : stretch.stop ≤ word.start := hend
      exact inOrder_append.mpr ⟨mid, hfront, hstart, by dsimp only; omega, le_rfl⟩

theorem stretches_inOrder {words : List Span} {mid : Nat} {stretches : List Span}
    (h : InOrder lo stretches mid) (hwords : InOrder mid words hi) :
    InOrder lo (words.foldl read.stretched stretches) hi := by
  induction words generalizing mid stretches with
  | nil => exact h.mono le_rfl hwords
  | cons word rest ih =>
    obtain ⟨hstart, hword, hrest⟩ := hwords
    exact ih (stretched_inOrder (h.mono le_rfl hstart) hword) hrest

/-- Where words stand, line by line, is in order between where the words are. -/
theorem onLines_inOrder {range : Span} (hwords : InOrder lo (slice read.words range) hi)
    (hhi : hi ≤ read.text.length) : InOrder lo (read.onLines range) hi := by
  have hstretches : InOrder lo ((slice read.words range).foldl read.stretched []) hi :=
    stretches_inOrder (show InOrder lo [] lo from le_refl lo) hwords
  refine InOrder.filter (hstretches.flatMap fun stretch hstretch => ?_) _
  obtain ⟨-, hordered, hstop⟩ := hstretches.mem hstretch
  exact (linesOf_spec '\n' hordered (Nat.le_trans hstop hhi)).1

theorem noMark_onLines {range : Span} (hwords : InOrder lo (slice read.words range) hi)
    (hhi : hi ≤ read.text.length) {line : Span} (hline : line ∈ read.onLines range) :
    '\n' ∉ slice read.text line := by
  have hstretches : InOrder lo ((slice read.words range).foldl read.stretched []) hi :=
    stretches_inOrder (show InOrder lo [] lo from le_refl lo) hwords
  obtain ⟨stretch, hstretch, hmem⟩ := List.mem_flatMap.mp (List.mem_filter.mp hline).1
  obtain ⟨-, hordered, hstop⟩ := hstretches.mem hstretch
  exact mark_notMem_line hordered (Nat.le_trans hstop hhi) hmem

end OnLines

section Added

variable {f g : Nat → List Char} {planned : Read}

theorem Lined.planned_le {p t p' t' : Nat} {runs : List Run} (h : Lined f g (p, t) runs (p', t')) :
    p ≤ p' := by
  induction runs generalizing p t with
  | nil => exact le_of_eq (congrArg Prod.fst h)
  | cons run rest ih =>
    obtain ⟨hopens, hok, hrest⟩ := h
    have hstart : run.planned.start = p := congrArg Prod.fst hopens
    exact hstart ▸ Nat.le_trans hok.planned (ih hrest)

/-- What the changes of runs that tile some words put in stands in order, on no more than a line
    each. -/
theorem addedIn_inOrder {runs : List Run} {p t p' t' lo hi : Nat} (h : Lined f g (p, t) runs (p', t'))
    (hwords : InOrder lo (slice planned.words ⟨p, p'⟩) hi) (hhi : hi ≤ planned.text.length) :
    InOrder lo (addedIn runs planned) hi ∧
      ∀ stretch ∈ addedIn runs planned, '\n' ∉ slice planned.text stretch := by
  induction runs generalizing p t lo with
  | nil => exact ⟨hwords.le, fun stretch hmem => absurd hmem List.not_mem_nil⟩
  | cons run rest ih =>
    obtain ⟨hopens, hok, hrest⟩ := h
    obtain rfl : run.planned.start = p := congrArg Prod.fst hopens
    rw [← slice_append planned.words hok.planned (Lined.planned_le hrest)] at hwords
    obtain ⟨mid, hhead, htail⟩ := inOrder_append.mp hwords
    obtain ⟨horder, hnone⟩ := ih hrest htail
    cases hkept : run.kept with
    | true =>
      rw [show addedIn (run :: rest) planned = addedIn rest planned by simp [addedIn, hkept]]
      exact ⟨horder.mono hhead.le le_rfl, hnone⟩
    | false =>
      rw [show addedIn (run :: rest) planned = planned.onLines run.planned ++ addedIn rest planned by
        simp [addedIn, hkept]]
      have hmid := Nat.le_trans htail.le hhi
      refine ⟨inOrder_append.mpr ⟨mid, onLines_inOrder hhead hmid, horder⟩, fun stretch hmem => ?_⟩
      rcases List.mem_append.mp hmem with hmem | hmem
      · exact noMark_onLines hhead hmid hmem
      · exact hnone stretch hmem

end Added

/-- The lines laid out over runs that tile the words say the planned code. -/
theorem laidOut_shown {planned today : Read} {runs : List Run}
    (h : Lined planned.word today.word (0, 0) runs (planned.words.length, today.words.length)) :
    (laidOut runs planned today).lines.map shown = planned.text.splitOn '\n' := by
  obtain ⟨hadded, hnone⟩ := addedIn_inOrder h
    (show InOrder 0 (slice planned.words ⟨0, planned.words.length⟩) planned.text.length by
      rw [slice_all]
      exact planned.ordered) le_rfl
  obtain ⟨horder, hsaid, hends⟩ := linesOf_spec '\n' (s := ⟨0, planned.text.length⟩)
    (Nat.zero_le _) (le_refl planned.text.length)
  rw [slice_all] at hsaid
  calc ((linesOf '\n' planned.text ⟨0, planned.text.length⟩).map fun line =>
        parts planned.text line (addedIn runs planned) (removedIn runs planned today)).map shown
      = (linesOf '\n' planned.text ⟨0, planned.text.length⟩).map (slice planned.text) := by
        rw [List.map_map]
        refine List.map_congr_left fun line hline => ?_
        exact parts_shown _ (horder.mem hline).2.1 (hends line hline) hadded hnone
    _ = planned.text.splitOn '\n' := hsaid

/-! ## What is kept -/

/-- What the words outside the changes are, in the planned code. -/
def keptWords (planned : Read) (runs : List Run) : List (List Char) :=
  (runs.filter (·.kept)).flatMap fun run => slice planned.said run.planned

/-- Two codes lined up: the runs go one after another through both, they say all of both, and what is
    kept says the same in both, so it is a common subsequence. -/
structure LinedUp (planned today : Read) (runs : List Run) : Prop where
  tiled : Lined planned.word today.word (0, 0) runs (planned.words.length, today.words.length)
  allPlanned : (runs.flatMap fun run => slice planned.said run.planned) = planned.said
  allToday : (runs.flatMap fun run => slice today.said run.today) = today.said
  kept : ∀ run ∈ runs, run.kept = true → slice planned.said run.planned = slice today.said run.today
  inPlanned : (keptWords planned runs).Sublist planned.said
  inToday : (keptWords planned runs).Sublist today.said

section Kept

variable {f g : Nat → List Char}

/-- Pieces that tile some words say them all. -/
theorem flatMap_slice {α : Type} (said : List α) {runs : List Run} {p t p' t' : Nat}
    (h : Lined f g (p, t) runs (p', t')) :
    (runs.flatMap fun run => slice said run.planned) = slice said ⟨p, p'⟩ := by
  induction runs generalizing p t with
  | nil =>
    obtain rfl : p = p' := congrArg Prod.fst h
    exact (slice_nil said le_rfl).symm
  | cons run rest ih =>
    obtain ⟨hopens, hok, hrest⟩ := h
    obtain rfl : run.planned.start = p := congrArg Prod.fst hopens
    rw [List.flatMap_cons, ih hrest]
    exact slice_append said hok.planned (Lined.planned_le hrest)

theorem Lined.stop_le {runs : List Run} {p t p' t' : Nat} (h : Lined f g (p, t) runs (p', t'))
    {run : Run} (hrun : run ∈ runs) : run.planned.stop ≤ p' := by
  induction runs generalizing p t with
  | nil => cases hrun
  | cons first rest ih =>
    obtain ⟨-, -, hrest⟩ := h
    rcases List.mem_cons.mp hrun with rfl | hrun
    · exact Lined.planned_le hrest
    · exact ih hrest hrun

theorem slice_said {read : Read} {range : Span} (h : range.stop ≤ read.words.length) :
    slice read.said range =
      (List.range (range.stop - range.start)).map fun i => read.word (range.start + i) := by
  show (((List.range read.words.length).map read.word).drop range.start).take
    (range.stop - range.start) = _
  rw [← List.map_drop, ← List.map_take, List.range_eq_range', List.drop_range',
    List.take_range'_of_length_ge (by omega), List.range'_eq_map_range, List.map_map]
  refine List.map_congr_left fun i _ => ?_
  show read.word (0 + range.start * 1 + i) = read.word (range.start + i)
  rw [Nat.mul_one, Nat.zero_add]

theorem slice_all_said (read : Read) : slice read.said ⟨0, read.words.length⟩ = read.said := by
  have hlength : read.said.length = read.words.length := by simp [Read.said]
  rw [← hlength]
  exact slice_all read.said

end Kept

/-- Runs that tile the words of both codes line the two up. -/
theorem linedUp_of_lined {planned today : Read} {runs : List Run}
    (h : Lined planned.word today.word (0, 0) runs (planned.words.length, today.words.length)) :
    LinedUp planned today runs := by
  have hplanned := (flatMap_slice planned.said h).trans (slice_all_said planned)
  have htoday : (runs.flatMap fun run => slice today.said run.today) = today.said := by
    have hswapped := (flatMap_slice today.said h.swapped).trans (slice_all_said today)
    rwa [List.flatMap_map] at hswapped
  have hkept : ∀ run ∈ runs, run.kept = true →
      slice planned.said run.planned = slice today.said run.today := by
    intro run hrun hk
    have hok : run.Ok planned.word today.word := h.mem hrun
    have hlength := hok.length hk
    have hstart := hok.planned
    have hstart' := hok.today
    have hend : run.today.stop ≤ today.words.length :=
      h.swapped.stop_le (List.mem_map_of_mem (f := Run.swapped) hrun)
    rw [slice_said (h.stop_le hrun), slice_said hend,
      show run.today.stop - run.today.start = run.planned.stop - run.planned.start by omega]
    refine List.map_congr_left fun i hi => hok.same hk i ?_
    have hi' := List.mem_range.mp hi
    omega
  have hcommon : keptWords planned runs =
      (runs.filter (·.kept)).flatMap fun run => slice today.said run.today := by
    refine List.flatMap_congr fun run hrun => ?_
    obtain ⟨hmem, hk⟩ := List.mem_filter.mp hrun
    exact hkept run hmem hk
  refine ⟨h, hplanned, htoday, hkept, ?_, ?_⟩
  · have hsub := (List.filter_sublist (p := (·.kept)) (l := runs)).flatMap
      fun run => slice planned.said run.planned
    rwa [hplanned] at hsub
  · have hsub := (List.filter_sublist (p := (·.kept)) (l := runs)).flatMap
      fun run => slice today.said run.today
    rwa [htoday, ← hcommon] at hsub

/-! ## The whole -/

/-- **The marks of a plan's diff tell the truth.**  Each line's kept and added parts say that line of
    the planned code; the codes stay lined up as changes are slid and cleaned; and only codes that say
    the same are unchanged. -/
theorem marks_true (planned today : Read) :
    (∀ marks, compared planned today = .modified (some marks) →
      marks.lines.map shown = planned.text.splitOn '\n') ∧
    (∀ runs, aligned planned today = some runs → LinedUp planned today runs ∧
      LinedUp planned today (slid runs planned today) ∧
      LinedUp planned today (cleaned (slid runs planned today) planned today)) ∧
    (compared planned today = .unchanged ↔ planned.said = today.said) := by
  refine ⟨fun marks hmarks => ?_, fun runs hruns => ?_, fun h => ?_, fun h => if_pos h⟩
  · unfold compared at hmarks
    split_ifs at hmarks
    cases hruns : aligned planned today with
    | none => simp [hruns] at hmarks
    | some runs =>
      rw [hruns] at hmarks
      cases hmarks
      exact laidOut_shown (cleaned_lined (slid_lined (aligned_lined hruns) (aligned_inside hruns)).1)
  · have haligned := aligned_lined hruns
    have hslid := (slid_lined haligned (aligned_inside hruns)).1
    exact ⟨linedUp_of_lined haligned, linedUp_of_lined hslid, linedUp_of_lined (cleaned_lined hslid)⟩
  · unfold compared at h
    split_ifs at h with hsaid
    · exact hsaid
    · cases hruns : aligned planned today <;> simp [hruns] at h

/-- `b;` where `a;` stands, on a line of its own after it. -/
def twoLines : Read where
  text := "a;\nb;".toList
  uncommented := id
  words := [⟨0, 1⟩, ⟨1, 2⟩, ⟨3, 4⟩, ⟨4, 5⟩]
  ordered := by decide

def oneLine : Read where
  text := "a;".toList
  uncommented := id
  words := [⟨0, 1⟩, ⟨1, 2⟩]
  ordered := by decide

/-- The line put in is marked, and the two lines still say the planned code. -/
theorem marks_true_twoLines : ∃ marks, compared twoLines oneLine = .modified (some marks) ∧
    marks.lines = [[.kept ['a', ';']], [.added ['b', ';']]] ∧
    marks.lines.map shown = twoLines.text.splitOn '\n' :=
  ⟨⟨[[.kept ['a', ';']], [.added ['b', ';']]]⟩, by rfl, rfl,
    (marks_true twoLines oneLine).1 _ (by rfl)⟩

end Yunta.Diff
