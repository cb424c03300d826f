/-
  Code a plan writes, read against the code that stands where it goes today, word by word.

  1. **A code read** — its text, where each of its words stands in it, and what its language leaves of
     what stands between two of them.  Places count characters.

  2. **Lining up** — `aligned` keeps what the two open and close with and the longest run of words they
     share between; `slid` moves a change to where it reads best; `cleaned` takes a short stretch kept
     between two changes for part of one.

  3. **Marks** — `laidOut` gives each planned line as what it keeps, puts in and takes out.
-/
import Mathlib.Algebra.Group.Nat.Defs
import Mathlib.Data.List.Sort
import Yunta.Lib.Spans

set_option linter.unusedVariables false

namespace Yunta.Diff

open Spans

/-! ## A code read -/

/-- A code's text, and where each of its words stands in it: in order, and none within another. -/
structure Read where
  text : List Char
  /-- What its language leaves of a stretch once its comments are out. -/
  uncommented : List Char → List Char
  words : List Span
  ordered : InOrder 0 words text.length

/-- `text` with every stretch of whitespace in it one space. -/
def collapsed (text : List Char) : List Char :=
  let (out, blank) := text.foldl (fun (held : List Char × Bool) ch =>
    if Text.isWhitespace ch then (held.1, true)
    else if held.2 then (held.1 ++ [' ', ch], false)
    else (held.1 ++ [ch], false)) ([], false)
  if blank then out ++ [' '] else out

namespace Read

variable (read : Read)

/-- Where word `at` stands. -/
def wordAt (place : Nat) : Span := read.words[place]?.getD ⟨0, 0⟩

/-- What word `at` says. -/
def word (place : Nat) : List Char := slice read.text (read.wordAt place)

/-- What each word says, in order. -/
def said : List (List Char) := (List.range read.words.length).map read.word

/-- What stands between a word and the next, its comments left out. -/
def gap (place : Nat) : List Char :=
  read.uncommented (slice read.text ⟨(read.wordAt place).stop, (read.wordAt (place + 1)).start⟩)

/-- Words as a reader is told them: each with what stands between it and the next. -/
def spoken (range : Span) : List Char :=
  collapsed ((List.range' range.start (range.stop - range.start)).flatMap fun place =>
    read.word place ++ if place + 1 < range.stop then read.gap place else [])

/-- The place right after word `at - 1`: before the first word when `at` is the first, and the text's
    end when it has no words. -/
def after (place : Nat) : Nat :=
  match (if place = 0 then none else read.words[place - 1]?) with
  | some before => before.stop
  | none => (read.words.head?.map (·.start)).getD read.text.length

/-- Where words stand, from the first's start to the last's end; for no words, the place right after
    the word before them. -/
def place (range : Span) : Span :=
  if range.stop ≤ range.start then ⟨read.after range.start, read.after range.start⟩
  else ⟨(read.wordAt range.start).start, (read.wordAt (range.stop - 1)).stop⟩

/-- A word joins the stretch before it, where no line ends between the two. -/
def stretched (stretches : List Span) (word : Span) : List Span :=
  match stretches.getLast? with
  | some stretch =>
    if (slice read.text ⟨stretch.stop, word.start⟩).contains '\n' then stretches ++ [word]
    else stretches.dropLast ++ [⟨stretch.start, word.stop⟩]
  | none => [word]

/-- Where words stand, a stretch to a line: a word that runs on past its line is cut where each line
    ends. -/
def onLines (range : Span) : List Span :=
  let stretches := (slice read.words range).foldl read.stretched []
  (stretches.flatMap (linesOf '\n' read.text)).filter fun line => line.start < line.stop

end Read

/-! ## Lining up -/

/-- The most cells the table that compares two codes word by word holds. -/
def comparedCells : Nat := 2 ^ 20

/-- A stretch of the two codes lined up, which say the same one for one where it is kept. -/
structure Run where
  planned : Span
  today : Span
  kept : Bool
  deriving DecidableEq

/-- What one word of the two codes is to the other. -/
inductive Step where
  /-- Both say it. -/
  | kept
  /-- Only the planned code says it. -/
  | added
  /-- Only today's code says it. -/
  | removed
  deriving DecidableEq

/-- `runs` with a stretch after them: part of the last run when it is of the same kind. -/
def joined (runs : List Run) (planned today : Span) (kept : Bool) : List Run :=
  match runs.getLast? with
  | some last =>
    if last.kept = kept then
      runs.dropLast ++
        [⟨⟨last.planned.start, planned.stop⟩, ⟨last.today.start, today.stop⟩, kept⟩]
    else runs ++ [⟨planned, today, kept⟩]
  | none => runs ++ [⟨planned, today, kept⟩]

/-- How many words the two say alike, in order, from each row and column on. -/
def longestTable (rows columns : Nat) (same : Nat → Nat → Bool) : Array Nat :=
  let width := columns + 1
  let cells := if rows = 0 ∨ columns = 0 then 0 else (rows + 1) * width
  (List.range rows).reverse.foldl (fun longest row =>
    (List.range columns).reverse.foldl (fun longest column =>
      longest.setIfInBounds (row * width + column)
        (if same row column then longest.getD ((row + 1) * width + column + 1) 0 + 1
        else max (longest.getD ((row + 1) * width + column) 0)
          (longest.getD (row * width + column + 1) 0))) longest) (Array.replicate cells 0)

/-- What the next word is, where either code has one left. -/
def nextStep (longest : Array Nat) (rows columns : Nat) (same : Nat → Nat → Bool)
    (row column : Nat) : Step :=
  let width := columns + 1
  if row < rows ∧ column < columns then
    if same row column then .kept
    else if longest.getD ((row + 1) * width + column) 0 ≥ longest.getD (row * width + column + 1) 0
      then .added
    else .removed
  else if row < rows then .added
  else .removed

/-- The steps from a row and a column on: each goes past one word or two, so as many as words are left
    are enough. -/
def stepsFrom (longest : Array Nat) (rows columns : Nat) (same : Nat → Nat → Bool) :
    Nat → Nat → Nat → List Step
  | 0, _, _ => []
  | left + 1, row, column =>
    if row < rows ∨ column < columns then
      let step := nextStep longest rows columns same row column
      step :: stepsFrom longest rows columns same left
        (row + if step = .removed then 0 else 1) (column + if step = .added then 0 else 1)
    else []

/-- What each word of the planned code's `rows` and today's `columns` is to the other, in order. -/
def steps (planned today : Read) (rows columns : Span) : List Step :=
  let tall := rows.stop - rows.start
  let wide := columns.stop - columns.start
  let same := fun row column =>
    planned.word (rows.start + row) == today.word (columns.start + column)
  stepsFrom (longestTable tall wide same) tall wide same (tall + wide) 0 0

/-- How many of some places pass one after another. -/
def countWhile (places : List Nat) (p : Nat → Bool) : Nat := (places.takeWhile p).length

/-- One step more of the two codes lined up. -/
def stepped (held : List Run × Nat × Nat) (step : Step) : List Run × Nat × Nat :=
  let (runs, p, t) := held
  let p' := p + if step = .removed then 0 else 1
  let t' := t + if step = .added then 0 else 1
  (joined runs ⟨p, p'⟩ ⟨t, t'⟩ (step = .kept), p', t')

/-- How many words the two codes open with alike. -/
def head (planned today : Read) : Nat :=
  countWhile (List.range (min planned.words.length today.words.length)) fun place =>
    planned.word place == today.word place

/-- How many words they close with alike, of those after what they open with. -/
def tail (planned today : Read) : Nat :=
  let p := planned.words.length
  let t := today.words.length
  let head := head planned today
  countWhile (List.range (min (p - head) (t - head))) fun back =>
    planned.word (p - 1 - back) == today.word (t - 1 - back)

/-- The two codes' words lined up: what they open and close with, and the longest run of words they
    share between; none when what differs is too long to line up. -/
def aligned (planned today : Read) : Option (List Run) :=
  let p := planned.words.length
  let t := today.words.length
  let head := head planned today
  let tail := tail planned today
  let rows := ⟨head, p - tail⟩
  let columns := ⟨head, t - tail⟩
  if (rows.stop - rows.start) * (columns.stop - columns.start) > comparedCells then none
  else
    let reached := (steps planned today rows columns).foldl stepped
      ([⟨⟨0, head⟩, ⟨0, head⟩, true⟩], head, head)
    some (joined reached.1 ⟨reached.2.1, p⟩ ⟨reached.2.2, t⟩ true)

/-! ## Where a change reads best -/

/-- How many words the kept run at `at` can give the change beside it: all of them at either end of the
    code, all but one between two changes. -/
def room (runs : List Run) (place : Option Nat) : Nat :=
  match place with
  | none => 0
  | some place =>
    match (runs[place]?).filter (·.kept) with
    | none => 0
    | some run =>
      let edge := place = 0 ∨ place = runs.length - 1
      (run.planned.stop - run.planned.start) - if edge then 0 else 1

def endsAnItem (word : List Char) : Bool := word = [';'] || word = ['}']

/-- How well words read as one change: two points when they end where a part of the code does, and one
    when they start where one does. -/
def fit (read : Read) (run : Span) : Nat :=
  let parts := fun gap : List Char => gap.contains ',' || gap.contains '\n'
  let closes := run.stop = read.words.length || endsAnItem (read.word (run.stop - 1)) ||
    parts (read.gap (run.stop - 1)) || [[')'], [']'], ['}']].contains (read.word run.stop)
  let opens := run.start = 0 || endsAnItem (read.word (run.start - 1)) ||
    parts (read.gap (run.start - 1)) || [['('], ['['], ['{']].contains (read.word (run.start - 1))
  (if closes then 2 else 0) + if opens then 1 else 0

/-- How far back a change can start, moving past words said alike at its two ends. -/
def roomBack (runs : List Run) (place : Nat) (read : Read) (words : Span) : Nat :=
  countWhile (List.range' 1 (room runs (if place = 0 then none else some (place - 1)))) fun past =>
    read.word (words.start - past) == read.word (words.stop - past)

def roomAhead (runs : List Run) (place : Nat) (read : Read) (words : Span) : Nat :=
  countWhile (List.range (room runs (some (place + 1)))) fun past =>
    read.word (words.stop + past) == read.word (words.start + past)

/-- Where a change starts at its best: of the places it reaches the one it fits best, the rightmost of
    two that fit as well. -/
def bestPlace (runs : List Run) (place : Nat) (read : Read) (words : Span) : Nat :=
  let back := roomBack runs place read words
  let ahead := roomAhead runs place read words
  let fits := fun start => fit read ⟨start, start + (words.stop - words.start)⟩
  (List.range' (words.start - back) (back + ahead + 1)).foldl
    (fun best start => if fits best ≤ fits start then start else best) (words.start - back)

/-- The change at `at` moved from starting at word `from` to starting at `to`: every bound around it
    moves as far in both codes. -/
def shift (runs : List Run) (place source target : Nat) : List Run :=
  let moved := fun bound => bound + target - source
  let runs := if place = 0 then runs else runs.modify (place - 1) fun before =>
    { before with
      planned := ⟨before.planned.start, moved before.planned.stop⟩
      today := ⟨before.today.start, moved before.today.stop⟩ }
  let runs := runs.modify place fun run =>
    { run with
      planned := ⟨moved run.planned.start, moved run.planned.stop⟩
      today := ⟨moved run.today.start, moved run.today.stop⟩ }
  runs.modify (place + 1) fun after =>
    { after with
      planned := ⟨moved after.planned.start, after.planned.stop⟩
      today := ⟨moved after.today.start, after.today.stop⟩ }

def isEmpty (s : Span) : Bool := s.stop ≤ s.start

/-- The change at `at` moved to where it reads best, where it only puts words in or only takes words
    out. -/
def slidAt (planned today : Read) (runs : List Run) (place : Nat) : List Run :=
  match runs[place]? with
  | none => runs
  | some run =>
    if !run.kept && !isEmpty run.planned && isEmpty run.today then
      shift runs place run.planned.start (bestPlace runs place planned run.planned)
    else if !run.kept && isEmpty run.planned && !isEmpty run.today then
      shift runs place run.today.start (bestPlace runs place today run.today)
    else runs

def slid (runs : List Run) (planned today : Read) : List Run :=
  (List.range runs.length).foldl (slidAt planned today) runs

/-! ## Short stretches kept -/

/-- Whether the kept run at `at` stands on one planned line with the changes on either side of it, and
    says no more than either. -/
def absorbed (runs : List Run) (planned today : Read) (place : Nat) : Bool :=
  match runs[place - 1]?, runs[place]?, runs[place + 1]? with
  | some before, some kept, some after =>
    if !kept.kept || before.kept || after.kept then false
    else
      let size := (planned.spoken kept.planned).length
      let outsaid := fun change : Run =>
        size ≤ max (planned.spoken change.planned).length (today.spoken change.today).length
      let line := ⟨(planned.place before.planned).start, (planned.place after.planned).stop⟩
      outsaid before && outsaid after && !(slice planned.text line).contains '\n'
  | _, _, _ => false

/-- The change before a kept run, the run and the change after it as one change. -/
def absorb (runs : List Run) (place : Nat) : List Run :=
  match runs[place + 1]? with
  | none => runs
  | some after =>
    ((runs.eraseIdx (place + 1)).eraseIdx place).modify (place - 1) fun before =>
      { before with
        planned := ⟨before.planned.start, after.planned.stop⟩
        today := ⟨before.today.start, after.today.stop⟩ }

/-- Absorbs as long as there is a run to; each time two runs fewer are left. -/
def cleanedIn (planned today : Read) : Nat → List Run → List Run
  | 0, runs => runs
  | left + 1, runs =>
    match (List.range' 1 (runs.length - 2)).find? (absorbed runs planned today) with
    | none => runs
    | some place => cleanedIn planned today left (absorb runs place)

/-- `runs` with each kept run that stands between two changes on one planned line, and says no more
    than either of them, read as part of one change with both. -/
def cleaned (runs : List Run) (planned today : Read) : List Run :=
  cleanedIn planned today runs.length runs

/-! ## Marks -/

/-- A part a line reads in. -/
inductive Part where
  | kept (said : List Char)
  | added (said : List Char)
  | removed (said : List Char)
  deriving DecidableEq

/-- Words of today's code as a change that only takes them out says them: with the comma that stood
    before them, or else the one after them. -/
def takenOut (today : Read) (range : Span) : List Char :=
  let parting := fun gap : List Char => if gap.contains ',' then some gap else none
  let before := if range.start = 0 then none else parting (today.gap (range.start - 1))
  let after := if range.stop < today.words.length then parting (today.gap (range.stop - 1)) else none
  let words := today.spoken range
  let said :=
    match before, after with
    | some before, _ => before ++ words
    | none, some after => words ++ after
    | none, none => words
  (collapsed said).dropWhile Text.isWhitespace

/-- The order marks stand in: what comes out before what goes in at the same place. -/
def earlier (a b : Span × Part) : Prop :=
  a.1.start < b.1.start ∨ a.1.start = b.1.start ∧ a.1.stop ≤ b.1.stop

instance : DecidableRel earlier := fun a b =>
  inferInstanceAs (Decidable (a.1.start < b.1.start ∨ a.1.start = b.1.start ∧ a.1.stop ≤ b.1.stop))

/-- What a line says from a place on: the marks on it, and what it keeps between. -/
def partsFrom (text : List Char) (stop : Nat) : Nat → List (Span × Part) → List Part
  | reached, [] =>
    if reached < stop then [.kept (slice text ⟨reached, stop⟩)] else []
  | reached, (stretch, part) :: marked =>
    (if reached < stretch.start then [.kept (slice text ⟨reached, stretch.start⟩)] else []) ++
      part :: partsFrom text stop (max reached stretch.stop) marked

/-- The marks on a line: each of `removed` that stands there, and each stretch of `added` on it. -/
def marksOn (text : List Char) (line : Span) (added : List Span) (removed : List (Nat × List Char)) :
    List (Span × Part) :=
  ((removed.filter fun mark => line.start ≤ mark.1 && mark.1 ≤ line.stop).map fun mark =>
      (⟨mark.1, mark.1⟩, .removed mark.2)) ++
    (added.filter fun stretch => line.start ≤ stretch.start && stretch.start < line.stop).map
      fun stretch => (stretch, .added (slice text stretch))

/-- The parts a line of `text` reads in. -/
def parts (text : List Char) (line : Span) (added : List Span) (removed : List (Nat × List Char)) :
    List Part :=
  partsFrom text line.stop line.start ((marksOn text line added removed).insertionSort earlier)

/-- Where the planned code puts words in, a stretch to a line. -/
def addedIn (runs : List Run) (planned : Read) : List Span :=
  (runs.filter fun run => !run.kept).flatMap fun run => planned.onLines run.planned

/-- What today's code says where a run changes it, and the place in the planned code where it stood. -/
def removedIn (runs : List Run) (planned today : Read) : List (Nat × List Char) :=
  (runs.filter fun run => !run.kept && !isEmpty run.today).map fun run =>
    if isEmpty run.planned then (planned.after run.planned.start, takenOut today run.today)
    else ((planned.place run.planned).start, today.spoken run.today)

/-- Each line of a code as the parts it reads in. -/
structure Marks where
  lines : List (List Part)

/-- `runs` laid out on the planned code's lines. -/
def laidOut (runs : List Run) (planned today : Read) : Marks :=
  ⟨(linesOf '\n' planned.text ⟨0, planned.text.length⟩).map fun line =>
    parts planned.text line (addedIn runs planned) (removedIn runs planned today)⟩

inductive Against where
  | unchanged
  | modified (marks : Option Marks)

/-- The planned code read against today's: unchanged when their words are the same, else modified, with
    marks when the two are short enough to compare word by word. -/
def compared (planned today : Read) : Against :=
  if planned.said = today.said then .unchanged
  else
    match aligned planned today with
    | none => .modified none
    | some runs =>
      .modified (some (laidOut (cleaned (slid runs planned today) planned today) planned today))

end Yunta.Diff
