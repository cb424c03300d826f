/-
  A subprocess's pipe, read one line at a time.

  What a pipe hands over is cut where the system cut it: one read may end within a line, and the
  next may hold three.

  1. **The reader** — `LineReader` holds what was read and not yet taken, and the reads to come.
     `Reading.round` is one pass of the loop of `next_line`: it takes what is at hand up to a line
     break, and either goes on or gives a line.  A line past `maxLineBytes` is let go of as soon as
     it passes it, and what is left of it is passed over.

  2. **What was heard** — `heard` is what the reads say together, up to the first that failed, and
     `linesHeard` the lines of it: every line within the limit, decoded, and what stands after the
     last line break where the pipe came to its end.

  3. **The reading** — `nextLine_line` and `nextLine_last` say what one call gives, whatever the
     cuts, and `lines_heard` what all of them give.  `line_within`: no pass of any call holds more
     than the limit.
-/
import Mathlib.Algebra.GroupWithZero.Nat
import Mathlib.Logic.Relation
import Yunta.Lib.Text
import Yunta.Lib.Utf8

set_option linter.unusedVariables false

namespace Yunta.Process

open Framing Relation

/-- The longest line the reader accepts. -/
def maxLineBytes : Nat := 1024 * 1024

/-- `\n`. -/
def lineBreak : UInt8 := 10

/-! ## The reader -/

/-- One read of a pipe: its bytes, one at least, or the error it met.  A pipe is at its end where no
    read is left. -/
inductive PipeRead where
  | bytes (first : UInt8) (rest : Bytes)
  | failed

structure LineReader where
  buffer : Bytes
  pipe : List PipeRead

namespace LineReader

def new (pipe : List PipeRead) : LineReader := ⟨[], pipe⟩

/-- What is at hand: what is buffered, else the next read.  Nothing where that read failed, and no
    bytes at the pipe's end. -/
def fillBuf : LineReader → Option Bytes × LineReader
  | ⟨[], []⟩ => (some [], ⟨[], []⟩)
  | ⟨[], .failed :: pipe⟩ => (none, ⟨[], pipe⟩)
  | ⟨[], .bytes first rest :: pipe⟩ => (some (first :: rest), ⟨first :: rest, pipe⟩)
  | ⟨byte :: buffer, pipe⟩ => (some (byte :: buffer), ⟨byte :: buffer, pipe⟩)

def consume (reader : LineReader) (n : Nat) : LineReader :=
  { reader with buffer := reader.buffer.drop n }

end LineReader

/-- A line's bytes as text, without the `\r` of its ending. -/
def decode (line : Bytes) : String :=
  Utf8.lossy (if line.getLast? = some 13 then line.dropLast else line)

/-- A line being read: the reader, what is held of the line, and whether the line passed the limit. -/
structure Reading where
  reader : LineReader
  line : Bytes
  discarding : Bool

/-- What a pass of the loop comes to: another, or a line, or none. -/
inductive Round where
  | more (reading : Reading)
  | gives (line : Option String) (reader : LineReader)

namespace Reading

/-- What is held of the line once `chunk` is taken too. -/
def holding (r : Reading) (chunk : Bytes) : Bytes × Bool :=
  if !r.discarding && Nat.blt maxLineBytes (r.line.length + chunk.length) then ([], true)
  else if !r.discarding then (r.line ++ chunk, false)
  else (r.line, true)

/-- The bytes at hand up to the first line break, and whether there is one. -/
def chunkOf (available : Bytes) : Bytes × Bool :=
  match available.findIdx? (· == lineBreak) with
  | some at_ => (available.take at_, true)
  | none => (available, false)

/-- One pass of the loop. -/
def round (r : Reading) : Round :=
  match r.reader.fillBuf with
  | (none, reader) => .gives none reader
  | (some [], reader) =>
    .gives (if !r.discarding && !r.line.isEmpty then some (decode r.line) else none) reader
  | (some (byte :: bytes), reader) =>
    let chunk := chunkOf (byte :: bytes)
    let reader := reader.consume (chunk.1.length + chunk.2.toNat)
    let held := r.holding chunk.1
    if !chunk.2 then .more ⟨reader, held.1, held.2⟩
    -- The line break of a line let go of: what comes next is a line of its own.
    else if held.2 then .more ⟨reader, held.1, false⟩
    else .gives (some (decode held.1)) reader

end Reading

/-! ### Every pass takes something -/

namespace PipeRead

/-- How much a read leaves to take. -/
def size : PipeRead → Nat
  | bytes _ rest => rest.length + 1
  | failed => 1

end PipeRead

namespace LineReader

/-- What a reader still has to take. -/
def left (reader : LineReader) : Nat := reader.buffer.length + (reader.pipe.map PipeRead.size).sum

theorem fillBuf_left (reader : LineReader) : reader.fillBuf.2.left ≤ reader.left := by
  obtain ⟨buffer, pipe⟩ := reader
  cases buffer with
  | cons byte buffer => exact Nat.le_refl _
  | nil =>
    cases pipe with
    | nil => exact Nat.le_refl _
    | cons arrival pipe => cases arrival <;> simp [fillBuf, left, PipeRead.size]

/-- What is at hand is what is buffered once it is. -/
theorem fillBuf_buffer {reader : LineReader} {available : Bytes}
    (h : reader.fillBuf.1 = some available) : reader.fillBuf.2.buffer = available := by
  obtain ⟨buffer, pipe⟩ := reader
  cases buffer with
  | cons byte buffer => exact Option.some.inj h
  | nil =>
    cases pipe with
    | nil => exact Option.some.inj h
    | cons arrival pipe =>
      cases arrival with
      | failed => cases h
      | bytes first rest => exact Option.some.inj h

theorem consume_left {reader : LineReader} {n : Nat} (hn : 0 < n)
    (hbuffer : 0 < reader.buffer.length) : (reader.consume n).left < reader.left := by
  show (reader.buffer.drop n).length + (reader.pipe.map PipeRead.size).sum <
    reader.buffer.length + (reader.pipe.map PipeRead.size).sum
  rw [List.length_drop]
  omega

end LineReader

namespace Reading

/-- What is taken of bytes at hand is one of them at least. -/
theorem chunkOf_pos (byte : UInt8) (bytes : Bytes) :
    0 < (chunkOf (byte :: bytes)).1.length + (chunkOf (byte :: bytes)).2.toNat := by
  unfold chunkOf
  split
  · show 0 < _ + 1
    omega
  · exact Nat.succ_pos _

/-- A pass that finds bytes at hand takes some of what is left. -/
theorem taken_left {from_ reader : LineReader} {byte : UInt8} {bytes : Bytes}
    (h : from_.fillBuf = (some (byte :: bytes), reader)) :
    (reader.consume ((chunkOf (byte :: bytes)).1.length + (chunkOf (byte :: bytes)).2.toNat)).left <
      from_.left := by
  have hfill := LineReader.fillBuf_left from_
  have hbuffer := @LineReader.fillBuf_buffer from_ (byte :: bytes)
  rw [h] at hfill hbuffer
  refine Nat.lt_of_lt_of_le (LineReader.consume_left (chunkOf_pos byte bytes) ?_) hfill
  rw [hbuffer rfl]
  exact Nat.succ_pos _

theorem round_left {r r' : Reading} (h : r.round = .more r') : r'.reader.left < r.reader.left := by
  unfold round at h
  split at h
  · cases h
  · cases h
  · next byte bytes reader heq =>
    have hlt := taken_left heq
    dsimp only at h
    split at h
    · cases h
      exact hlt
    · split at h
      · cases h
        exact hlt
      · cases h

/-- `next_line`, from where a pass of its loop stands. -/
def nextLine (r : Reading) : Option String × LineReader :=
  match h : r.round with
  | .more r' => r'.nextLine
  | .gives line reader => (line, reader)
termination_by r.reader.left
decreasing_by exact round_left h

theorem nextLine_more {r r' : Reading} (h : r.round = .more r') : r.nextLine = r'.nextLine := by
  rw [nextLine]
  split
  · next _ heq =>
    rw [h] at heq
    rw [Round.more.inj heq]
  · next _ _ heq =>
    rw [h] at heq
    cases heq

theorem nextLine_gives {r : Reading} {line : Option String} {reader : LineReader}
    (h : r.round = .gives line reader) : r.nextLine = (line, reader) := by
  rw [nextLine]
  split
  · next _ heq =>
    rw [h] at heq
    cases heq
  · next _ _ heq =>
    rw [h] at heq
    cases heq
    rfl

theorem round_gives_left {r : Reading} {line : Option String} {reader : LineReader}
    (h : r.round = .gives line reader) :
    reader.left ≤ r.reader.left ∧ (line.isSome → r.line = [] → reader.left < r.reader.left) := by
  have hfill := LineReader.fillBuf_left r.reader
  unfold round at h
  split at h
  · next reader' heq =>
    rw [heq] at hfill
    cases h
    exact ⟨hfill, fun hsome => absurd hsome Bool.false_ne_true⟩
  · next reader' heq =>
    rw [heq] at hfill
    cases h
    refine ⟨hfill, fun hsome hline => ?_⟩
    rw [hline] at hsome
    simp at hsome
  · next byte bytes reader' heq =>
    have hlt := taken_left heq
    dsimp only at h
    split at h
    · cases h
    · split at h
      · cases h
      · cases h
        exact ⟨Nat.le_of_lt hlt, fun _ _ => hlt⟩

theorem nextLine_left (r : Reading) :
    r.nextLine.2.left ≤ r.reader.left ∧
      (r.nextLine.1.isSome → r.line = [] → r.nextLine.2.left < r.reader.left) := by
  induction r using nextLine.induct with
  | case1 r r' hround ih =>
    have hlt := round_left hround
    rw [nextLine_more hround]
    exact ⟨by omega, fun _ _ => by omega⟩
  | case2 r line reader hround =>
    rw [nextLine_gives hround]
    exact round_gives_left hround

end Reading

/-! ## What was heard -/

/-- What reads say together, up to the first that failed, and whether one did. -/
def heard : List PipeRead → Bytes × Bool
  | [] => ([], false)
  | .failed :: _ => ([], true)
  | .bytes first rest :: pipe => (first :: rest ++ (heard pipe).1, (heard pipe).2)

namespace LineReader

/-- What a reader still hears. -/
def text (reader : LineReader) : Bytes := reader.buffer ++ (heard reader.pipe).1

/-- Whether a failed read cuts it off. -/
def cut (reader : LineReader) : Bool := (heard reader.pipe).2

theorem fillBuf_failed {reader : LineReader} (h : reader.fillBuf.1 = none) :
    reader.text = [] ∧ reader.cut = true := by
  obtain ⟨buffer, pipe⟩ := reader
  cases buffer with
  | cons byte buffer => cases h
  | nil =>
    cases pipe with
    | nil => cases h
    | cons arrival pipe =>
      cases arrival with
      | failed => exact ⟨rfl, rfl⟩
      | bytes first rest => cases h

theorem fillBuf_ended {reader : LineReader} (h : reader.fillBuf.1 = some []) :
    reader.text = [] ∧ reader.cut = false ∧ reader.fillBuf.2 = reader := by
  obtain ⟨buffer, pipe⟩ := reader
  cases buffer with
  | cons byte buffer => cases h
  | nil =>
    cases pipe with
    | nil => exact ⟨rfl, rfl, rfl⟩
    | cons arrival pipe => cases arrival <;> cases h

/-- Filling the buffer changes nothing of what is heard. -/
theorem fillBuf_heard {reader : LineReader} {available : Bytes}
    (h : reader.fillBuf.1 = some available) :
    reader.fillBuf.2.text = reader.text ∧ reader.fillBuf.2.cut = reader.cut := by
  obtain ⟨buffer, pipe⟩ := reader
  cases buffer with
  | cons byte buffer => exact ⟨rfl, rfl⟩
  | nil =>
    cases pipe with
    | nil => exact ⟨rfl, rfl⟩
    | cons arrival pipe =>
      cases arrival with
      | failed => cases h
      | bytes first rest => exact ⟨rfl, rfl⟩

/-- What is buffered is heard before what is not. -/
theorem text_consume {reader : LineReader} {taken rest : Bytes}
    (h : reader.buffer = taken ++ rest) :
    reader.text = taken ++ (reader.consume taken.length).text := by
  show reader.buffer ++ _ = taken ++ (reader.buffer.drop taken.length ++ _)
  rw [h, List.drop_left, List.append_assoc]
  rfl

end LineReader

namespace Reading

/-- **What is taken of the bytes at hand** is what stands before their first line break, or all of
    them where they hold none. -/
theorem chunkOf_spec (available : Bytes) :
    (∃ chunk rest, available = chunk ++ lineBreak :: rest ∧ lineBreak ∉ chunk ∧
      chunkOf available = (chunk, true)) ∨
    lineBreak ∉ available ∧ chunkOf available = (available, false) := by
  unfold chunkOf
  split
  · next at_ hfound =>
    rw [List.findIdx?_eq_some_iff_getElem] at hfound
    obtain ⟨hlt, hat, hbefore⟩ := hfound
    refine .inl ⟨available.take at_, available.drop (at_ + 1), ?_, ?_, rfl⟩
    · rw [← (beq_iff_eq.mp hat), List.getElem_cons_drop, List.take_append_drop]
    · intro hmem
      obtain ⟨i, hi, heq⟩ := List.getElem_of_mem hmem
      rw [List.length_take] at hi
      rw [List.getElem_take] at heq
      exact absurd (beq_iff_eq.mpr heq) (hbefore i (by omega))
  · next hfound =>
    refine .inr ⟨fun hmem => ?_, rfl⟩
    have := List.findIdx?_eq_none_iff.mp hfound lineBreak hmem
    cases this.symm.trans (beq_self_eq_true lineBreak)

/-- **What one pass does**, by what is still heard. -/
theorem round_spec (r : Reading) :
    (r.reader.text = [] ∧ r.reader.cut = true ∧ ∃ reader, r.round = .gives none reader) ∨
    (r.reader.text = [] ∧ r.reader.cut = false ∧ r.round =
      .gives (if !r.discarding && !r.line.isEmpty then some (decode r.line) else none) r.reader) ∨
    (∃ chunk reader, lineBreak ∉ chunk ∧ r.reader.text = chunk ++ reader.text ∧
      reader.cut = r.reader.cut ∧
      r.round = .more ⟨reader, (r.holding chunk).1, (r.holding chunk).2⟩) ∨
    ∃ chunk reader, lineBreak ∉ chunk ∧ r.reader.text = chunk ++ lineBreak :: reader.text ∧
      reader.cut = r.reader.cut ∧ reader.left < r.reader.left ∧
      r.round = if (r.holding chunk).2 then .more ⟨reader, (r.holding chunk).1, false⟩
        else .gives (some (decode (r.holding chunk).1)) reader := by
  rcases hfill : r.reader.fillBuf with ⟨_ | available, reader⟩
  · obtain ⟨htext, hcut⟩ := LineReader.fillBuf_failed (congrArg Prod.fst hfill)
    refine .inl ⟨htext, hcut, reader, ?_⟩
    rw [round, hfill]
  · have hbuffer := LineReader.fillBuf_buffer (congrArg Prod.fst hfill)
    obtain ⟨htext, hcut⟩ := LineReader.fillBuf_heard (congrArg Prod.fst hfill)
    have hleft := LineReader.fillBuf_left r.reader
    rw [hfill] at hbuffer htext hcut hleft
    cases available with
    | nil =>
      obtain ⟨hempty, hwhole, hsame⟩ := LineReader.fillBuf_ended (congrArg Prod.fst hfill)
      rw [hfill] at hsame
      refine .inr (.inl ⟨hempty, hwhole, ?_⟩)
      rw [round, hfill, ← hsame]
    | cons byte bytes =>
      refine .inr (.inr ?_)
      rcases chunkOf_spec (byte :: bytes) with ⟨chunk, rest, hsplit, hbreak, hchunk⟩ | ⟨hbreak, hchunk⟩
      · have htaken : reader.buffer = (chunk ++ [lineBreak]) ++ rest := by
          rw [hbuffer, hsplit, List.append_assoc]
          rfl
        have hrest := LineReader.text_consume htaken
        refine .inr ⟨chunk, reader.consume (chunk ++ [lineBreak]).length, hbreak, ?_, hcut,
          Nat.lt_of_lt_of_le (LineReader.consume_left ?_ ?_) hleft, ?_⟩
        · rw [← htext, hrest, List.append_assoc]
          rfl
        · simp
        · rw [hbuffer]
          exact Nat.succ_pos _
        · rw [round, hfill]
          dsimp only
          rw [hchunk, List.length_append]
          rfl
      · have htaken : reader.buffer = (byte :: bytes) ++ [] := by rw [hbuffer, List.append_nil]
        have hrest := LineReader.text_consume htaken
        refine .inl ⟨byte :: bytes, reader.consume (byte :: bytes).length, hbreak, ?_, hcut, ?_⟩
        · rw [← htext, hrest]
        · rw [round, hfill]
          dsimp only
          rw [hchunk]
          rfl

/-- A line is within the limit as far as it is held, and nothing is held of one let go of. -/
structure Within (r : Reading) : Prop where
  bounded : r.line.length ≤ maxLineBytes
  empty : r.discarding = true → r.line = []

section
variable {r : Reading} (h : r.Within)

include h

/-- What is held of a line is the line, where it is within the limit. -/
theorem holding_eq (chunk : Bytes) :
    r.holding chunk = if r.discarding = false ∧ (r.line ++ chunk).length ≤ maxLineBytes
      then (r.line ++ chunk, false) else ([], true) := by
  unfold holding
  rw [List.length_append]
  cases hdiscarding : r.discarding with
  | true => simp [h.empty hdiscarding]
  | false =>
    by_cases hfits : r.line.length + chunk.length ≤ maxLineBytes
    · have hblt : Nat.blt maxLineBytes (r.line.length + chunk.length) = false := by
        rw [← Bool.not_eq_true, Nat.blt_eq]
        omega
      simp [hblt, hfits]
    · have hblt : Nat.blt maxLineBytes (r.line.length + chunk.length) = true := by
        rw [Nat.blt_eq]
        omega
      simp [hblt, hfits]

/-- A chunk taken leaves the line within the limit. -/
theorem Within.holding (chunk : Bytes) (reader : LineReader) :
    (Reading.mk reader (r.holding chunk).1 (r.holding chunk).2).Within := by
  rw [holding_eq h chunk]
  split
  · next hfits => exact ⟨hfits.2, fun hdiscarding => absurd hdiscarding Bool.false_ne_true⟩
  · exact ⟨Nat.zero_le _, fun _ => rfl⟩

/-- Two chunks taken are held as the two together. -/
theorem holding_holding (chunk rest : Bytes) (reader : LineReader) :
    (Reading.mk reader (r.holding chunk).1 (r.holding chunk).2).holding rest =
      r.holding (chunk ++ rest) := by
  rw [holding_eq (Within.holding h chunk reader) rest, holding_eq h (chunk ++ rest)]
  show (if (r.holding chunk).2 = false ∧ ((r.holding chunk).1 ++ rest).length ≤ maxLineBytes
    then ((r.holding chunk).1 ++ rest, false) else ([], true)) = _
  by_cases hfits : r.discarding = false ∧ (r.line ++ chunk).length ≤ maxLineBytes
  · have hheld : r.holding chunk = (r.line ++ chunk, false) := by rw [holding_eq h, if_pos hfits]
    rw [hheld]
    simp only [hfits.1, List.append_assoc]
  · have hheld : r.holding chunk = ([], true) := by rw [holding_eq h, if_neg hfits]
    have hlong : ¬ (r.discarding = false ∧ (r.line ++ (chunk ++ rest)).length ≤ maxLineBytes) := by
      rintro ⟨hdiscarding, hlong⟩
      refine hfits ⟨hdiscarding, ?_⟩
      simp only [List.length_append] at hlong ⊢
      omega
    rw [hheld, if_neg hlong]
    rfl

end

theorem Within.fresh (reader : LineReader) : (Reading.mk reader [] false).Within :=
  ⟨Nat.zero_le _, fun hdiscarding => absurd hdiscarding Bool.false_ne_true⟩

theorem holding_fresh (reader : LineReader) (line : Bytes) :
    (Reading.mk reader [] false).holding line =
      if line.length ≤ maxLineBytes then (line, false) else ([], true) := by
  rw [holding_eq (.fresh reader)]
  simp

/-- **One pass keeps the line within the limit.** -/
theorem Within.round {r r' : Reading} (h : r.Within) (hround : r.round = .more r') : r'.Within := by
  rcases round_spec r with ⟨_, _, _, heq⟩ | ⟨_, _, heq⟩ | ⟨chunk, reader, _, _, _, heq⟩ |
    ⟨chunk, reader, _, _, _, _, heq⟩
  · cases heq.symm.trans hround
  · cases heq.symm.trans hround
  · cases heq.symm.trans hround
    exact h.holding chunk reader
  · rw [heq] at hround
    split at hround
    · next hdiscarding =>
      cases hround
      have hheld := (h.holding chunk reader).empty hdiscarding
      dsimp only at hheld
      rw [hheld]
      exact .fresh reader
    · cases hround

/-! ## The reading -/

/-- **One call, where a line break is heard**: it gives the line that ends there, or, where the line
    is past the limit, what a call after it gives. -/
theorem nextLine_line {r : Reading} (h : r.Within) {piece rest : Bytes} (hbreak : lineBreak ∉ piece)
    (htext : r.reader.text = piece ++ lineBreak :: rest) :
    ∃ reader : LineReader, reader.text = rest ∧ reader.cut = r.reader.cut ∧
      reader.left < r.reader.left ∧
      r.nextLine = if (r.holding piece).2 then (Reading.mk reader [] false).nextLine
        else (some (decode (r.holding piece).1), reader) := by
  induction r using nextLine.induct generalizing piece with
  | case1 r r' hround ih =>
    have hlt := round_left hround
    have hwithin := h.round hround
    rcases round_spec r with ⟨hempty, _⟩ | ⟨hempty, _⟩ | ⟨chunk, reader, hchunk, hsplit, hcut, heq⟩ |
      ⟨chunk, reader, hchunk, hsplit, hcut, hleft, heq⟩
    · rw [hempty] at htext
      cases piece <;> cases htext
    · rw [hempty] at htext
      cases piece <;> cases htext
    · -- The chunk stops short of the line break, which the next pass hears.
      cases heq.symm.trans hround
      rw [hsplit] at htext
      obtain ⟨more, rfl, hmore⟩ : ∃ more, piece = chunk ++ more ∧
          reader.text = more ++ lineBreak :: rest := by
        rcases List.append_eq_append_iff.mp htext with ⟨more, hpiece, hrest⟩ | ⟨more, hchunk', hrest⟩
        · exact ⟨more, hpiece, hrest⟩
        · cases more with
          | nil => exact ⟨[], by rw [List.append_nil] at hchunk' ⊢; exact hchunk'.symm, hrest.symm⟩
          | cons byte more =>
            have hbyte := (List.cons.inj hrest).1
            rw [hchunk', ← hbyte] at hchunk
            exact absurd (List.mem_append_right _ List.mem_cons_self) hchunk
      obtain ⟨last, hlast, hlastcut, hleft, hnext⟩ :=
        ih hwithin (fun hmem => hbreak (List.mem_append_right _ hmem)) hmore
      refine ⟨last, hlast, hlastcut.trans hcut, by omega, ?_⟩
      rw [nextLine_more hround, hnext, holding_holding h]
    · -- The chunk ends at the line break of a line let go of.
      obtain ⟨rfl, rfl⟩ := append_mark_inj hbreak hchunk (htext.symm.trans hsplit)
      rw [heq] at hround
      split at hround
      · next hdiscarding =>
        have hheld := (h.holding piece reader).empty hdiscarding
        dsimp only at hheld
        cases hround
        refine ⟨reader, rfl, hcut, hlt, ?_⟩
        rw [hdiscarding, if_pos rfl, @nextLine_more r ⟨reader, [], false⟩]
        rw [heq, hdiscarding, if_pos rfl, hheld]
      · cases hround
  | case2 r line reader' hround =>
    rcases round_spec r with ⟨hempty, _⟩ | ⟨hempty, _⟩ | ⟨chunk, reader, hchunk, hsplit, hcut, heq⟩ |
      ⟨chunk, reader, hchunk, hsplit, hcut, hleft, heq⟩
    · rw [hempty] at htext
      cases piece <;> cases htext
    · rw [hempty] at htext
      cases piece <;> cases htext
    · cases heq.symm.trans hround
    · obtain ⟨rfl, rfl⟩ := append_mark_inj hbreak hchunk (htext.symm.trans hsplit)
      rw [nextLine_gives hround]
      rw [heq] at hround
      split at hround
      · cases hround
      · next hdiscarding =>
        cases hround
        exact ⟨_, rfl, hcut, hleft, (if_neg hdiscarding).symm⟩

/-- **One call, where no line break is heard**: it gives what the pipe ends in, where the limit
    admits it, and nothing where a failed read cuts it off. -/
theorem nextLine_last {r : Reading} (h : r.Within) (hbreak : lineBreak ∉ r.reader.text) :
    if r.reader.cut then r.nextLine.1 = none
    else ∃ last : LineReader, last.text = [] ∧ last.cut = false ∧
      r.nextLine = (if !(r.holding r.reader.text).2 && !(r.holding r.reader.text).1.isEmpty
        then some (decode (r.holding r.reader.text).1) else none, last) := by
  induction r using nextLine.induct with
  | case1 r r' hround ih =>
    have hwithin := h.round hround
    rcases round_spec r with ⟨_, _, _, heq⟩ | ⟨_, _, heq⟩ | ⟨chunk, reader, hchunk, hsplit, hcut, heq⟩ |
      ⟨chunk, reader, hchunk, hsplit, hcut, hleft, heq⟩
    · cases heq.symm.trans hround
    · cases heq.symm.trans hround
    · cases heq.symm.trans hround
      rw [hsplit] at hbreak
      have hlast := ih hwithin (fun hmem => hbreak (List.mem_append_right _ hmem))
      rw [nextLine_more hround, hsplit, ← hcut]
      rw [holding_holding h] at hlast
      exact hlast
    · rw [hsplit] at hbreak
      exact absurd (List.mem_append_right _ List.mem_cons_self) hbreak
  | case2 r line reader' hround =>
    rcases round_spec r with ⟨_, hcut, reader, heq⟩ | ⟨hempty, hcut, heq⟩ |
      ⟨chunk, reader, hchunk, hsplit, hcut, heq⟩ | ⟨chunk, reader, hchunk, hsplit, hcut, hleft, heq⟩
    · rw [hcut, nextLine_gives heq]
      rfl
    · rw [hcut, nextLine_gives heq, hempty]
      refine ⟨r.reader, hempty, hcut, ?_⟩
      rw [holding_eq h, List.append_nil]
      cases hdiscarding : r.discarding with
      | true => simp
      | false => simp [h.bounded]
    · cases heq.symm.trans hround
    · rw [hsplit] at hbreak
      exact absurd (List.mem_append_right _ List.mem_cons_self) hbreak

end Reading

namespace LineReader

/-- `next_line`. -/
def nextLine (reader : LineReader) : Option String × LineReader :=
  (Reading.mk reader [] false).nextLine

/-- Every line a caller reads: it calls until a call gives none. -/
def lines (reader : LineReader) : List String :=
  match h : reader.nextLine with
  | (some line, rest) => line :: rest.lines
  | (none, _) => []
termination_by reader.left
decreasing_by
  have hleft := (Reading.nextLine_left ⟨reader, [], false⟩).2
  rw [show (Reading.mk reader [] false).nextLine = (some line, rest) from h] at hleft
  exact hleft rfl rfl

theorem lines_some {reader rest : LineReader} {line : String}
    (h : reader.nextLine = (some line, rest)) : reader.lines = line :: rest.lines := by
  rw [lines]
  split
  · next _ _ heq =>
    cases h.symm.trans heq
    rfl
  · next _ heq => cases h.symm.trans heq

theorem lines_none {reader : LineReader} (h : reader.nextLine.1 = none) : reader.lines = [] := by
  rw [lines]
  split
  · next _ _ heq =>
    rw [heq] at h
    cases h
  · rfl

theorem lines_congr {reader other : LineReader} (h : reader.nextLine = other.nextLine) :
    reader.lines = other.lines := by
  rcases hother : other.nextLine with ⟨_ | line, rest⟩
  · rw [lines_none (by rw [h, hother]), lines_none (by rw [hother])]
  · rw [lines_some (h.trans hother), lines_some hother]

end LineReader

/-- A line, where the limit admits it. -/
def kept (line : Bytes) : Option String :=
  if line.length ≤ maxLineBytes then some (decode line) else none

/-- **The lines of what a pipe says**: those its line breaks end, within the limit, and what stands
    after the last of them, unless it is nothing or a failed read cuts it off. -/
def linesHeard (text : Bytes) (cut : Bool) : List String :=
  (text.splitOn lineBreak).dropLast.filterMap kept ++
    if cut then []
    else (((text.splitOn lineBreak).getLast?.filter (!·.isEmpty)).bind kept).toList

theorem notBreak {piece : Bytes} (hbreak : lineBreak ∉ piece) {byte : UInt8} (hbyte : byte ∈ piece) :
    (byte == lineBreak) = false := by
  rw [beq_eq_false_iff_ne]
  rintro rfl
  exact hbreak hbyte

theorem linesHeard_cons {piece rest : Bytes} (hbreak : lineBreak ∉ piece) (cut : Bool) :
    linesHeard (piece ++ lineBreak :: rest) cut = (kept piece).toList ++ linesHeard rest cut := by
  have hsplit : (piece ++ lineBreak :: rest).splitOn lineBreak = piece :: rest.splitOn lineBreak :=
    List.splitOnP_append_cons_of_forall_mem (fun byte hbyte => notBreak hbreak hbyte) lineBreak
      (beq_self_eq_true _) rest
  have hsome : rest.splitOn lineBreak ≠ [] := List.splitOnP_ne_nil _ _
  unfold linesHeard
  rw [hsplit, List.dropLast_cons_of_ne_nil hsome, List.getLast?_cons_of_ne_nil hsome, List.filterMap_cons]
  cases kept piece <;> rfl

theorem linesHeard_last {text : Bytes} (hbreak : lineBreak ∉ text) (cut : Bool) :
    linesHeard text cut =
      if cut then [] else (((some text).filter (!·.isEmpty)).bind kept).toList := by
  have hsplit : text.splitOn lineBreak = [text] :=
    List.splitOnP_eq_singleton (fun byte hbyte => notBreak hbreak hbyte)
  unfold linesHeard
  rw [hsplit]
  rfl

/-- Nothing is read where nothing is heard. -/
theorem lines_over {reader : LineReader} (h : reader.text = []) : reader.lines = [] := by
  have hbreak : lineBreak ∉ reader.text := by
    rw [h]
    exact List.not_mem_nil
  have hlast := Reading.nextLine_last (.fresh reader) hbreak
  refine LineReader.lines_none ?_
  split at hlast
  · exact hlast
  · obtain ⟨_, _, _, hcall⟩ := hlast
    show (Reading.nextLine _).1 = none
    rw [hcall, h, Reading.holding_fresh]
    rfl

/-- **What is read is what was heard**: whatever reads the pipe comes in, and whatever of them is
    buffered already. -/
theorem lines_heard (reader : LineReader) : reader.lines = linesHeard reader.text reader.cut := by
  generalize hn : reader.left = n
  induction n using Nat.strongRecOn generalizing reader with
  | _ n ih =>
    have hfresh := Reading.Within.fresh reader
    by_cases hbreak : lineBreak ∈ reader.text
    · obtain ⟨piece, rest, htext, hpiece⟩ := List.eq_append_cons_of_mem hbreak
      obtain ⟨next, hnext, hcut, hleft, hcall⟩ := Reading.nextLine_line hfresh hpiece htext
      have hrest := ih next.left (by rw [← hn]; exact hleft) next rfl
      rw [hnext, hcut] at hrest
      rw [htext, linesHeard_cons hpiece, ← hrest, kept]
      have hheld := Reading.holding_fresh reader piece
      by_cases hfits : piece.length ≤ maxLineBytes
      · rw [if_pos hfits] at hheld ⊢
        rw [hheld] at hcall
        exact LineReader.lines_some hcall
      · rw [if_neg hfits] at hheld ⊢
        rw [hheld] at hcall
        exact LineReader.lines_congr hcall
    · have hlast := Reading.nextLine_last hfresh hbreak
      have hheld := Reading.holding_fresh reader reader.text
      rw [linesHeard_last hbreak]
      by_cases hcut : reader.cut = true
      · rw [if_pos hcut] at hlast ⊢
        exact LineReader.lines_none hlast
      · rw [if_neg hcut] at hlast ⊢
        obtain ⟨last, hempty, hwhole, hcall⟩ := hlast
        change reader.nextLine = _ at hcall
        show _ = (((some reader.text).filter (!·.isEmpty)).bind kept).toList
        by_cases hnone : reader.text = []
        · rw [if_pos (by rw [hnone]; exact Nat.zero_le _)] at hheld
          rw [hheld, hnone] at hcall
          rw [hnone]
          exact LineReader.lines_none (by rw [hcall]; rfl)
        · have hsome : reader.text.isEmpty = false := by rw [List.isEmpty_eq_false_iff]; exact hnone
          have hfilter : (some reader.text).filter (!·.isEmpty) = some reader.text := by
            rw [Option.filter_some, hsome]
            rfl
          rw [hfilter, Option.bind_some, kept]
          by_cases hfits : reader.text.length ≤ maxLineBytes
          · rw [if_pos hfits] at hheld ⊢
            rw [hheld, hsome] at hcall
            rw [LineReader.lines_some hcall, lines_over hempty]
            rfl
          · rw [if_neg hfits] at hheld ⊢
            rw [hheld] at hcall
            exact LineReader.lines_none (by rw [hcall]; rfl)

/-- A pass of a call's loop, and the next. -/
def Reading.Passes : Reading → Reading → Prop := ReflTransGen fun r r' => r.round = .more r'

/-- Every pass of every call holds a line within the limit. -/
theorem line_within {reader : LineReader} {r : Reading}
    (h : Reading.Passes ⟨reader, [], false⟩ r) : r.line.length ≤ maxLineBytes := by
  have hwithin : r.Within := by
    induction h with
    | refl => exact .fresh reader
    | tail _ hround ih => exact ih.round hround
  exact hwithin.bounded

/-- **A pipe is read by its lines, however it arrives**: the lines read are those of what its reads
    say together, up to the first that failed, and at no moment of any call is more held of a line
    than the limit. -/
theorem pipe_read (pipe : List PipeRead) :
    (LineReader.new pipe).lines = linesHeard (heard pipe).1 (heard pipe).2 ∧
      ∀ (reader : LineReader) (r : Reading), Reading.Passes ⟨reader, [], false⟩ r →
        r.line.length ≤ maxLineBytes :=
  ⟨lines_heard (.new pipe), fun _ _ h => line_within h⟩

/-- A line cut in two reads, and one with no ending. -/
example : (LineReader.new [.bytes 111 [107, 13], .bytes 10 [101, 110], .bytes 100 []]).lines =
    ["ok", "end"] := by
  rw [lines_heard]
  rfl

end Yunta.Process
