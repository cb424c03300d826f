/-
  How much a change is, as `git diff --numstat -z` prints it and the run counts it.

  1. **The count** — `counted` reads the fields between NUL bytes: a record of lines added, lines
     removed and a path, a tab after each count; a record with no path is a rename, and its old and
     new paths are the next two fields.  Every field is read once, so it ends on any bytes.

  2. **What git prints** — `encode` writes a list of changed files in that format, from what each
     is: its lines or binary, its path or its two paths.  A path is nonempty and has no NUL byte.

  3. **Main result** — `counted_encode`: of what git prints the count is the number of files, the
     lines added and removed, and the four files that move most, where the numbers fit the `u32`
     and the `u64` they are counted in.  They are added with wrapping, so past that they do not
     (`not_counted_exactly`).

  The lines read back off one record are `lines_printed`, the fields of one file `files_printed`.
-/
import Yunta.Lib.Framing
import Yunta.Lib.Text
import Yunta.Lib.Utf8
import Mathlib.Algebra.GroupWithZero.Nat
import Mathlib.Data.List.Sort

set_option linter.unusedVariables false

namespace Yunta.Git

open Framing (Bytes decimal)

/-! ## The count -/

/-- One file of a change, by its path. -/
structure FileChange where
  path : String
  added : Nat
  removed : Nat
  deriving DecidableEq

/-- A change as `diff --numstat` counts it. -/
structure Numstat where
  files : Nat := 0
  added : Nat := 0
  removed : Nat := 0
  largest : List FileChange := []
  deriving DecidableEq

/-- How many files a change names by their paths. -/
def largestFiles : Nat := 4

/-- A `u64` sum. -/
def add64 (a b : Nat) : Nat := (a + b) % 2 ^ 64

/-- A `u32` sum. -/
def add32 (a b : Nat) : Nat := (a + b) % 2 ^ 32

/-- One digit more of a number. -/
def digit (n : Nat) (byte : UInt8) : Option Nat :=
  if 48 ≤ byte.toNat ∧ byte.toNat ≤ 57 then some (10 * n + (byte.toNat - 48)) else none

/-- A number without its leading plus: one is taken away where more follows it. -/
def unsigned : Bytes → Bytes
  | 43 :: byte :: rest => byte :: rest
  | field => field

/-- A count of lines as numstat prints it, parsed as a `u64`; `none` for a binary file's `-`. -/
def lines (field : Bytes) : Option Nat :=
  if field = [] then none
  else ((unsigned field).foldlM digit 0).filter fun n => n < 2 ^ 64

/-- At most `n` parts of a field: those before the first marks, and the rest whole. -/
def splitn (mark : UInt8) : Nat → Bytes → List Bytes
  | 0, _ => []
  | 1, field => [field]
  | n + 2, field =>
    match field.dropWhile (· != mark) with
    | [] => [field]
    | _ :: rest => field.takeWhile (· != mark) :: splitn mark (n + 1) rest

/-- The three values kept of a record. -/
structure Entry where
  added : Nat
  removed : Nat
  path : Bytes
  deriving DecidableEq

/-- A record's counts and its path. -/
def entry (record : Bytes) : Entry :=
  let parts := splitn 9 3 record
  ⟨(parts[0]?.bind lines).getD 0, (parts[1]?.bind lines).getD 0, parts[2]?.getD []⟩

/-- The files of the fields between NUL bytes. -/
def files : List Bytes → List Entry
  | [] => []
  | record :: fields =>
    if record = [] then files fields
    else if (entry record).path ≠ [] then entry record :: files fields
    else
      -- A rename: its old and new paths are the next two fields.
      match fields with
      | _ :: path :: fields => { entry record with path } :: files fields
      | _ => [entry record]

/-- The lines a file moves. -/
def Entry.moved (file : Entry) : Nat := add64 file.added file.removed

/-- The order of the files: the one that moves most first, a tie by path. -/
def Entry.first (a b : Entry) : Bool :=
  b.moved < a.moved || (b.moved == a.moved && a.path ≤ b.path)

def Entry.fileChange (file : Entry) : FileChange :=
  ⟨Utf8.lossy file.path, file.added, file.removed⟩

def Numstat.count (stat : Numstat) (file : Entry) : Numstat :=
  { stat with
    files := add32 stat.files 1
    added := add64 stat.added file.added
    removed := add64 stat.removed file.removed }

/-- What `diff --numstat -z` printed, counted. -/
def counted (printed : Bytes) : Numstat :=
  let files := files (printed.splitOn 0)
  { files.foldl Numstat.count {} with
    largest := ((files.mergeSort Entry.first).take largestFiles).map Entry.fileChange }

/-! ## What git prints -/

/-- A path git names a file by. -/
structure GitPath where
  bytes : Bytes
  nonempty : bytes ≠ []
  noNul : (0 : UInt8) ∉ bytes

/-- A file's lines, or that it is binary. -/
inductive Counts where
  | text (added removed : Nat)
  | binary

inductive Name where
  | kept (path : GitPath)
  | renamed (old new : GitPath)

/-- One changed file. -/
structure Change where
  counts : Counts
  name : Name

def Change.added (c : Change) : Nat :=
  match c.counts with
  | .text added _ => added
  | .binary => 0

def Change.removed (c : Change) : Nat :=
  match c.counts with
  | .text _ removed => removed
  | .binary => 0

/-- Where the file is now. -/
def Change.path (c : Change) : Bytes :=
  match c.name with
  | .kept path => path.bytes
  | .renamed _ new => new.bytes

def Change.moved (c : Change) : Nat := c.added + c.removed

/-- The two counts, a tab after each. -/
def Counts.printed : Counts → Bytes
  | .text added removed => decimal added ++ 9 :: (decimal removed ++ [9])
  | .binary => [45, 9, 45, 9]

/-- The fields of one file. -/
def Change.fields (c : Change) : List Bytes :=
  match c.name with
  | .kept path => [c.counts.printed ++ path.bytes]
  | .renamed old new => [c.counts.printed, old.bytes, new.bytes]

/-- The change as `git diff --numstat -z` prints it: each field ends in a NUL. -/
def encode (changes : List Change) : Bytes :=
  (changes.flatMap Change.fields).flatMap fun field => field ++ [0]

/-- What is kept of a changed file. -/
def Change.entry (c : Change) : Entry := ⟨c.added, c.removed, c.path⟩

/-- The order of changed files: the one that moves most lines first, a tie by path. -/
def Change.Before (a b : Change) : Prop :=
  b.moved < a.moved ∨ (b.moved = a.moved ∧ a.path ≤ b.path)

/-- How a changed file is named. -/
def Change.named (c : Change) : FileChange := ⟨Utf8.lossy c.path, c.added, c.removed⟩

/-! ## One file read back -/

theorem digit_digitByte (m : Nat) {d : Nat} (h : d < 10) :
    digit m (Framing.digitByte d) = some (10 * m + d) := by
  have hbyte := Framing.toNat_digitByte h
  show (if 48 ≤ (Framing.digitByte d).toNat ∧ (Framing.digitByte d).toNat ≤ 57 then
    some (10 * m + ((Framing.digitByte d).toNat - 48)) else none) = _
  rw [hbyte, if_pos (by omega)]
  congr 1
  omega

/-- The number a run of digits goes on to. -/
theorem foldlM_decimal (n : Nat) : (decimal n).foldlM digit 0 = some n := by
  induction n using Nat.strongRecOn with
  | ind n ih =>
    by_cases hn : n < 10
    · rw [Framing.decimal_of_lt hn]
      show (digit 0 (Framing.digitByte n)).bind some = some n
      rw [digit_digitByte 0 hn]
      show some (10 * 0 + n) = some n
      congr 1
      omega
    · have hd : n % 10 < 10 := Nat.mod_lt n (by omega)
      rw [Framing.decimal_of_le (Nat.le_of_not_lt hn), List.foldlM_append, ih (n / 10) (by omega)]
      show (digit (n / 10) (Framing.digitByte (n % 10))).bind some = some n
      rw [digit_digitByte (n / 10) hd]
      show some (10 * (n / 10) + n % 10) = some n
      congr 1
      omega

theorem unsigned_decimal (n : Nat) : unsigned (decimal n) = decimal n := by
  unfold unsigned
  split
  · next byte rest h =>
    have hplus := Framing.digit_of_mem_decimal n (h ▸ List.mem_cons_self)
    exact absurd hplus (by decide)
  · rfl

/-- **A count reads back** where it fits a `u64`. -/
theorem lines_printed {n : Nat} (h : n < 2 ^ 64) : lines (decimal n) = some n := by
  rw [lines, if_neg (Framing.decimal_ne_nil n), unsigned_decimal, foldlM_decimal]
  exact Option.filter_eq_some_iff.mpr ⟨rfl, decide_eq_true h⟩

/-- What stands before the first mark is a part of its own. -/
theorem splitn_mark {mark : UInt8} {front : Bytes} (h : mark ∉ front) (n : Nat) (rest : Bytes) :
    splitn mark (n + 2) (front ++ mark :: rest) = front :: splitn mark (n + 1) rest := by
  have hfront : ∀ byte ∈ front, (byte != mark) = true := by
    intro byte hbyte
    simp only [bne_iff_ne, ne_eq]
    rintro rfl
    exact h hbyte
  have hdrop : (front ++ mark :: rest).dropWhile (· != mark) = mark :: rest := by
    rw [List.dropWhile_append_of_pos hfront]
    simp
  have htake : (front ++ mark :: rest).takeWhile (· != mark) = front := by
    rw [List.takeWhile_append_of_pos hfront]
    simp
  rw [splitn, hdrop, htake]

/-- The counts a file prints fit the `u64` they are read into. -/
def Change.Fits (c : Change) : Prop := c.added < 2 ^ 64 ∧ c.removed < 2 ^ 64

/-- **A record reads back**: its counts, and whatever follows them as its path. -/
theorem entry_printed {c : Change} (h : c.Fits) (path : Bytes) :
    entry (c.counts.printed ++ path) = ⟨c.added, c.removed, path⟩ := by
  obtain ⟨counts, name⟩ := c
  cases counts with
  | text added removed =>
    obtain ⟨hadded, hremoved⟩ : added < 2 ^ 64 ∧ removed < 2 ^ 64 := h
    have htab : ∀ n, (9 : UInt8) ∉ decimal n := fun n =>
      Framing.notMem_decimal n (Or.inl (by decide))
    have hparts : splitn 9 3 ((Counts.text added removed).printed ++ path) =
        [decimal added, decimal removed, path] := by
      rw [Counts.printed, List.append_assoc, List.cons_append, List.append_assoc,
        splitn_mark (htab added) 1]
      show _ :: splitn 9 2 (decimal removed ++ 9 :: path) = _
      rw [splitn_mark (htab removed) 0]
      rfl
    show entry ((Counts.text added removed).printed ++ path) = ⟨added, removed, path⟩
    rw [entry, hparts]
    show Entry.mk ((lines (decimal added)).getD 0) ((lines (decimal removed)).getD 0) path = _
    rw [lines_printed hadded, lines_printed hremoved]
    rfl
  | binary =>
    have hparts : splitn 9 3 (Counts.binary.printed ++ path) = [[45], [45], path] := by
      show splitn 9 3 ([45] ++ 9 :: ([45] ++ 9 :: path)) = _
      rw [splitn_mark (by decide) 1, splitn_mark (by decide) 0]
      rfl
    show entry (Counts.binary.printed ++ path) = ⟨0, 0, path⟩
    rw [entry, hparts]
    rfl

theorem printed_ne_nil (counts : Counts) : counts.printed ≠ [] := by
  cases counts <;> simp [Counts.printed]

/-- A record with a path is a file of its own. -/
theorem files_kept {record : Bytes} (h : record ≠ []) (hpath : (entry record).path ≠ [])
    (fields : List Bytes) : files (record :: fields) = entry record :: files fields := by
  rcases fields with _ | ⟨old, _ | ⟨new, fields⟩⟩ <;> simp [files, h, hpath]

/-- **The fields of a file read back**, and the files of what follows them. -/
theorem files_printed {c : Change} (h : c.Fits) (rest : List Bytes) :
    files (c.fields ++ rest) = c.entry :: files rest := by
  obtain ⟨counts, name⟩ := c
  cases name with
  | kept path =>
    have hrecord : counts.printed ++ path.bytes ≠ [] := by simp [printed_ne_nil]
    have hentry := entry_printed h path.bytes
    show files ((counts.printed ++ path.bytes) :: rest) = _
    rw [files_kept hrecord (by rw [hentry]; exact path.nonempty), hentry]
    rfl
  | renamed old new =>
    have hentry := entry_printed h []
    rw [List.append_nil] at hentry
    show files (counts.printed :: old.bytes :: new.bytes :: rest) = _
    rw [files, if_neg (printed_ne_nil counts), hentry, if_neg (fun hne => hne rfl)]
    rfl

theorem files_fields {changes : List Change} (h : ∀ c ∈ changes, c.Fits) :
    files (changes.flatMap Change.fields ++ [[]]) = changes.map Change.entry := by
  induction changes with
  | nil => rfl
  | cons c changes ih =>
    rw [List.flatMap_cons, List.append_assoc, files_printed (h c List.mem_cons_self),
      ih fun c hc => h c (List.mem_cons_of_mem _ hc)]
    rfl

/-- No field of a file has a NUL byte. -/
theorem nul_notMem_fields {c : Change} {field : Bytes} (h : field ∈ c.fields) :
    (0 : UInt8) ∉ field := by
  obtain ⟨counts, name⟩ := c
  have hdecimal : ∀ n, (0 : UInt8) ∉ decimal n := fun n =>
    Framing.notMem_decimal n (Or.inl (by decide))
  have hcounts : (0 : UInt8) ∉ counts.printed := by
    cases counts with
    | text added removed => simp [Counts.printed, hdecimal]
    | binary => simp [Counts.printed]
  cases name with
  | kept path =>
    obtain rfl : field = counts.printed ++ path.bytes := List.mem_singleton.mp h
    simp [hcounts, path.noNul]
  | renamed old new =>
    have hcases : field = counts.printed ∨ field = old.bytes ∨ field = new.bytes := by
      simpa [Change.fields] using h
    rcases hcases with rfl | rfl | rfl
    · exact hcounts
    · exact old.noNul
    · exact new.noNul

/-- **The files of what git prints** are the changed files, in its order. -/
theorem files_encode {changes : List Change} (h : ∀ c ∈ changes, c.Fits) :
    files ((encode changes).splitOn 0) = changes.map Change.entry := by
  rw [encode, Text.splitOn_ended, files_fields h]
  intro field hfield
  obtain ⟨c, -, hmem⟩ := List.mem_flatMap.mp hfield
  exact nul_notMem_fields hmem

/-! ## The sums -/

/-- Counting files adds what they are to the totals, where the sums fit. -/
theorem foldl_count (entries : List Entry) (stat : Numstat)
    (hfiles : stat.files + entries.length < 2 ^ 32)
    (hadded : stat.added + (entries.map (·.added)).sum < 2 ^ 64)
    (hremoved : stat.removed + (entries.map (·.removed)).sum < 2 ^ 64) :
    entries.foldl Numstat.count stat =
      { stat with
        files := stat.files + entries.length
        added := stat.added + (entries.map (·.added)).sum
        removed := stat.removed + (entries.map (·.removed)).sum } := by
  induction entries generalizing stat with
  | nil => rfl
  | cons file entries ih =>
    simp only [List.length_cons, List.map_cons, List.sum_cons] at hfiles hadded hremoved ⊢
    have hstep : stat.count file =
        { stat with
          files := stat.files + 1
          added := stat.added + file.added
          removed := stat.removed + file.removed } := by
      simp only [Numstat.count, add32, add64]
      rw [Nat.mod_eq_of_lt (by omega), Nat.mod_eq_of_lt (by omega), Nat.mod_eq_of_lt (by omega)]
    rw [List.foldl_cons, hstep, ih]
    · congr 1 <;> (simp only []; omega)
    · show stat.files + 1 + entries.length < 2 ^ 32
      omega
    · show stat.added + file.added + (entries.map (·.added)).sum < 2 ^ 64
      omega
    · show stat.removed + file.removed + (entries.map (·.removed)).sum < 2 ^ 64
      omega

/-! ## The order -/

theorem Entry.first_total (a b : Entry) : (a.first b || b.first a) = true := by
  simp only [Entry.first, Bool.or_eq_true, Bool.and_eq_true, decide_eq_true_eq, beq_iff_eq]
  rcases Nat.lt_trichotomy a.moved b.moved with hlt | heq | hlt
  · exact Or.inr (Or.inl hlt)
  · rcases List.le_total a.path b.path with hpath | hpath
    · exact Or.inl (Or.inr ⟨heq.symm, hpath⟩)
    · exact Or.inr (Or.inr ⟨heq, hpath⟩)
  · exact Or.inl (Or.inl hlt)

theorem Entry.first_trans {a b c : Entry} (hab : a.first b = true) (hbc : b.first c = true) :
    a.first c = true := by
  simp only [Entry.first, Bool.or_eq_true, Bool.and_eq_true, decide_eq_true_eq,
    beq_iff_eq] at hab hbc ⊢
  rcases hab with hab | ⟨hab, hpath⟩
  · rcases hbc with hbc | ⟨hbc, -⟩ <;> exact Or.inl (by omega)
  · rcases hbc with hbc | ⟨hbc, hpath'⟩
    · exact Or.inl (by omega)
    · exact Or.inr ⟨hbc.trans hab, List.le_trans hpath hpath'⟩

/-- The order of the files is the order of the changes, where what each moves fits a `u64`. -/
theorem before_of_first {a b : Change} (ha : a.moved < 2 ^ 64) (hb : b.moved < 2 ^ 64)
    (h : a.entry.first b.entry = true) : a.Before b := by
  have hmoved : ∀ {c : Change}, c.moved < 2 ^ 64 → c.entry.moved = c.moved := fun hc =>
    Nat.mod_eq_of_lt hc
  simp only [Entry.first, Bool.or_eq_true, Bool.and_eq_true, decide_eq_true_eq, beq_iff_eq,
    hmoved ha, hmoved hb] at h
  exact h

/-! ## Counted as it is -/

/-- **The counts of a change are what it is**: as many files, the lines they add and remove, and
    the first four of the files in order. -/
structure Numstat.Of (stat : Numstat) (changes : List Change) : Prop where
  files : stat.files = changes.length
  added : stat.added = (changes.map Change.added).sum
  removed : stat.removed = (changes.map Change.removed).sum
  largest : ∃ ranked : List Change, ranked.Perm changes ∧ ranked.Pairwise Change.Before ∧
    stat.largest = (ranked.take largestFiles).map Change.named

/-- **What git prints of a change is counted as the change is**, for any files, in any order, under
    any paths, where the numbers fit what they are counted in. -/
theorem counted_encode (changes : List Change) (hfiles : changes.length < 2 ^ 32)
    (hadded : (changes.map Change.added).sum < 2 ^ 64)
    (hremoved : (changes.map Change.removed).sum < 2 ^ 64)
    (hmoved : ∀ c ∈ changes, c.moved < 2 ^ 64) :
    (counted (encode changes)).Of changes := by
  have hfits : ∀ c ∈ changes, c.Fits := fun c hc => by
    have hc := hmoved c hc
    rw [Change.moved] at hc
    exact ⟨by omega, by omega⟩
  have hentries := files_encode hfits
  have hfold := foldl_count (changes.map Change.entry) {} (by simpa using hfiles)
    (by simpa [Change.entry, Function.comp_def] using hadded)
    (by simpa [Change.entry, Function.comp_def] using hremoved)
  rw [← hentries] at hfold
  constructor
  · show ((files ((encode changes).splitOn 0)).foldl Numstat.count {}).files = _
    rw [hfold, hentries]
    simp
  · show ((files ((encode changes).splitOn 0)).foldl Numstat.count {}).added = _
    rw [hfold, hentries]
    simp [Change.entry, Function.comp_def]
  · show ((files ((encode changes).splitOn 0)).foldl Numstat.count {}).removed = _
    rw [hfold, hentries]
    simp [Change.entry, Function.comp_def]
  · -- The files are sorted as entries; the same sort of the changes gives the ranking.
    let first := fun a b : Change => a.entry.first b.entry
    have htrans : ∀ a b c, first a b = true → first b c = true → first a c = true :=
      fun a b c => Entry.first_trans
    have htotal : ∀ a b, (first a b || first b a) = true :=
      fun a b => Entry.first_total a.entry b.entry
    have hsorted := List.pairwise_mergeSort htrans htotal changes
    refine ⟨changes.mergeSort first, List.mergeSort_perm _ _, ?_, ?_⟩
    · refine hsorted.imp_of_mem fun ha hb hfirst => ?_
      exact before_of_first (hmoved _ (List.mem_mergeSort.mp ha))
        (hmoved _ (List.mem_mergeSort.mp hb)) hfirst
    · show (((files ((encode changes).splitOn 0)).mergeSort Entry.first).take largestFiles).map
        Entry.fileChange = _
      have hmapped : (changes.mergeSort first).map Change.entry =
          (changes.map Change.entry).mergeSort Entry.first :=
        List.map_mergeSort fun a _ b _ => rfl
      rw [hentries, ← hmapped, ← List.map_take, List.map_map]
      rfl

/-- A file at `a`, a tab, a newline and `b`, and a binary file renamed. -/
def mixed : List Change :=
  [⟨.text 3 1, .kept ⟨[97, 9, 10, 98], by decide, by decide⟩⟩,
    ⟨.binary, .renamed ⟨[120], by decide, by decide⟩ ⟨[9, 121], by decide, by decide⟩⟩]

theorem counted_mixed : (counted (encode mixed)).Of mixed :=
  counted_encode mixed (by decide) (by decide) (by decide) (by decide)

/-- Two files of `2 ^ 63` lines more. -/
def half : List Change :=
  [⟨.text (2 ^ 63) 0, .kept ⟨[97], by decide, by decide⟩⟩,
    ⟨.text (2 ^ 63) 0, .kept ⟨[98], by decide, by decide⟩⟩]

/-- Their lines wrap to none. -/
theorem not_counted_exactly : ¬ ∀ changes, (counted (encode changes)).Of changes := by
  intro h
  have hadded : (counted (encode half)).added = 2 ^ 64 := (h half).added
  have hfits : ∀ c ∈ half, c.Fits := by unfold Change.Fits; decide
  have hentries := files_encode hfits
  have hfold : (counted (encode half)).added =
      ((files ((encode half).splitOn 0)).foldl Numstat.count {}).added := rfl
  rw [hentries] at hfold
  rw [hfold] at hadded
  exact absurd hadded (by decide)

end Yunta.Git
