/-
  What the rail's hook reads of an HTTP response, and what a chunked body comes to there.

  1. **Reading** — `bodyOf` decodes the whole response before it looks at it: the head is what
     stands before the first blank line, and the chunk sizes are read from the decoded text.

  2. **Sending** — `chunkedResponse` is a body cut into chunks, each with its size written before
     it; where the cuts fall is the server's.

  3. **Main result** — `chunked_read_iff`: the hook reads the body that was sent exactly where each
     chunk is a text by itself.  The crux is a character cut in two: decoded, its first bytes are
     one replacement character of three bytes, which the chunk's size cuts through, or ends behind.
-/
import Mathlib.Algebra.Group.Nat.Defs
import Yunta.Lib.Str
import Yunta.Lib.Utf8

set_option linter.unusedVariables false

namespace Yunta.Hook

open Framing (Bytes)
open Str (splitOnce number fromStrRadix)
open Utf8 (chars code)

/-! ## Text -/

/-- `str::get(..n)` and `str::get(n..)`: the text cut at its `n`-th byte, where a character ends
    there. -/
def cutAt : Nat → List Char → Option (List Char × List Char)
  | 0, text => some ([], text)
  | _ + 1, [] => none
  | n + 1, c :: rest =>
    if c.utf8Size ≤ n + 1 then (cutAt (n + 1 - c.utf8Size) rest).map fun cut => (c :: cut.1, cut.2)
    else none

/-- A line without the line ending's carriage return. -/
def chomp (line : List Char) : List Char :=
  if line.getLast? = some '\r' then line.dropLast else line

/-- `str::lines`: every part but the last was ended by a line feed. -/
def lines (text : List Char) : List (List Char) :=
  let parts := text.splitOn '\n'
  parts.dropLast.map chomp ++ parts.getLast?.toList.filter (· ≠ [])

/-! ## Reading -/

def crlf : List Char := ['\r', '\n']

/-- What ends a response's head. -/
def blank : List Char := crlf ++ crlf

/-- The status code on a response's first line, when it has one. -/
def statusOf (head : List Char) : Option Nat :=
  (lines head).head?.bind fun line =>
    (Text.splitWhitespace line)[1]?.bind fun status => fromStrRadix 10 (2 ^ 16) status

/-- `str::eq_ignore_ascii_case`. -/
def eqIgnoreCase (a b : List Char) : Bool := a.map Char.toLower = b.map Char.toLower

/-- Whether a response's head says its body is chunked. -/
def chunked (head : List Char) : Bool :=
  (lines head).any fun line => eqIgnoreCase line "transfer-encoding: chunked".toList

/-- `str::trim_start_matches("\r\n")`. -/
def trimCrlf : List Char → List Char
  | '\r' :: '\n' :: rest => trimCrlf rest
  | text => text

/-- A chunked body joined back together, from where the loop stands: it stops at a size it cannot
    read, at the zero chunk, and at a size that cuts a character. -/
def joined : Nat → List Char → List Char
  | 0, _ => []
  | fuel + 1, rest =>
    match splitOnce crlf rest with
    | none => []
    | some (size, after) =>
      match fromStrRadix 16 (2 ^ 64) (Text.trim (.ofList size)).toList with
      | none | some 0 => []
      | some size =>
        match cutAt size after with
        | none => []
        | some (chunk, tail) => chunk ++ joined fuel (trimCrlf tail)

/-- A chunked body joined back together.  Every round takes its size's line off what is left. -/
def dechunked (body : List Char) : List Char := joined body.length body

/-- The status a response has instead of an answer. -/
inductive RailAskError where
  | status (code : Option Nat)
  deriving DecidableEq

/-- The body of a response whose status is 200, or the status it has instead. -/
def bodyOf (response : Bytes) : Except RailAskError (List Char) :=
  match splitOnce blank (chars none response) with
  | none => .error (.status none)
  | some (head, body) =>
    match statusOf head with
    | some 200 => if chunked head then .ok (dechunked body) else .ok body
    | status => .error (.status status)

/-! ## Sending -/

/-- One chunk as the server writes it: its bytes, and its size in hexadecimal digits. -/
structure Chunk where
  bytes : Bytes
  size : List Char
  nonempty : bytes ≠ []
  /-- A slice's length is a `usize`. -/
  fits : bytes.length < 2 ^ 64
  written : size ≠ [] ∧ number 16 size = some bytes.length

/-- Bytes sent as one chunk, their size as servers write it. -/
def Chunk.of (bytes : Bytes) (nonempty : bytes ≠ []) (fits : bytes.length < 2 ^ 64) : Chunk where
  bytes := bytes
  size := Nat.toDigits 16 bytes.length
  nonempty := nonempty
  fits := fits
  written := by
    refine ⟨fun hnil => ?_, Str.number_toDigits (by decide) (by decide) _⟩
    have hlen := Str.number_toDigits (show 2 ≤ 16 by decide) (by decide) bytes.length
    rw [hnil] at hlen
    exact nonempty (List.length_eq_zero_iff.mp (Option.some.inj hlen).symm)

/-- A chunk on the wire. -/
def Chunk.sent (chunk : Chunk) : Bytes :=
  code.encode (chunk.size ++ crlf) ++ (chunk.bytes ++ code.encode crlf)

/-- Chunks on the wire, and the zero chunk. -/
def sent (chunks : List Chunk) : Bytes :=
  chunks.flatMap Chunk.sent ++ code.encode ('0' :: blank)

/-- A response whose head says 200: its blank line is the first one. -/
structure Head where
  text : List Char
  ended : splitOnce blank (text ++ blank) = some (text, [])
  ok : statusOf text = some 200

/-- A response with its body sent in chunks. -/
def chunkedResponse (head : Head) (chunks : List Chunk) : Bytes :=
  code.encode (head.text ++ blank) ++ sent chunks

/-- A response with its body sent plain. -/
def plainResponse (head : Head) (body : List Char) : Bytes :=
  code.encode (head.text ++ blank) ++ code.encode body

/-- Whether no cut of the chunk falls inside a character: its bytes are a text by themselves. -/
def Chunk.Whole (chunk : Chunk) : Prop := ∃ text, chunk.bytes = code.encode text

/-- What ends the head where nothing follows ends it where anything does. -/
theorem Head.split (head : Head) (body : List Char) :
    splitOnce blank (head.text ++ (blank ++ body)) = some (head.text, body) := by
  refine Str.splitOnce_of_found ⟨rfl, fun earlier later heq => ?_⟩
  by_contra hlt
  rw [← List.append_assoc, ← List.append_assoc] at heq
  rcases List.append_eq_append_iff.mp heq with ⟨between, hlong, -⟩ | ⟨between, hshort, -⟩
  · have hlen := congrArg List.length hlong
    simp only [List.length_append] at hlen
    omega
  · rw [List.append_assoc] at hshort
    exact hlt ((Str.found_of_splitOnce head.ended).first earlier between hshort)

/-! ## One chunk read back -/

theorem length_encode_cons (c : Char) (text : List Char) :
    (code.encode (c :: text)).length = c.utf8Size + (code.encode text).length := by
  rw [Sync.Code.encode_cons, List.length_append]
  exact congrArg (· + _) (String.length_utf8EncodeChar c)

/-- A text is cut behind its front at as many bytes as the front has. -/
theorem cutAt_encode (text : List Char) (n : Nat) (rest : List Char) :
    cutAt ((code.encode text).length + n) (text ++ rest) =
      (cutAt n rest).map fun cut => (text ++ cut.1, cut.2) := by
  induction text with
  | nil =>
    rw [Sync.Code.encode_nil, List.length_nil, Nat.zero_add, List.nil_append]
    cases cutAt n rest <;> rfl
  | cons c text ih =>
    have hpos := c.utf8Size_pos
    have hlen := length_encode_cons c text
    obtain ⟨m, hm⟩ : ∃ m, (code.encode (c :: text)).length + n = m + 1 :=
      ⟨_, (Nat.succ_pred_eq_of_pos (by omega)).symm⟩
    rw [hm, List.cons_append, cutAt, if_pos (by omega),
      show m + 1 - c.utf8Size = (code.encode text).length + n by omega, ih, Option.map_map]
    rfl

/-- A text that begins with a character of three bytes is not cut inside it. -/
theorem cutAt_replacement {n : Nat} (hn : 0 < n) {rest : List Char} {cut : List Char × List Char}
    (h : cutAt n (Utf8.replacement :: rest) = some cut) :
    3 ≤ n ∧ ∃ more, cut.1 = Utf8.replacement :: more := by
  obtain ⟨m, rfl⟩ : ∃ m, n = m + 1 := ⟨n - 1, by omega⟩
  have hsize : Utf8.replacement.utf8Size = 3 := by decide
  rw [cutAt, hsize] at h
  split at h
  · next hle =>
    obtain ⟨after, -, rfl⟩ := Option.map_eq_some_iff.mp h
    exact ⟨hle, _, rfl⟩
  · cases h

/-- **A size written is read back.** -/
theorem Chunk.size_read (chunk : Chunk) :
    fromStrRadix 16 (2 ^ 64) (Text.trim (.ofList chunk.size)).toList =
      some chunk.bytes.length := by
  obtain ⟨hne, hnumber⟩ := chunk.written
  rw [Str.trim_of_none fun c hc => (Str.digit_of_digitOf (Str.isSome_digitOf hnumber c hc)).1]
  exact Str.fromStrRadix_of_number hne hnumber chunk.fits

theorem Chunk.size_clear (chunk : Chunk) : '\r' ∉ chunk.size := by
  intro hmem
  have hdigit := Str.digit_of_digitOf (Str.isSome_digitOf chunk.written.2 _ hmem)
  exact absurd hdigit.1 (by decide)

/-- Nothing is trimmed in front of a character that begins no line ending. -/
theorem trimCrlf_cons {c : Char} (h : c ≠ '\r') (text : List Char) :
    trimCrlf (c :: text) = c :: text := by
  unfold trimCrlf
  split
  · next heq => exact absurd (List.cons.inj heq).1 h
  · rfl

/-- **What a chunk's round does**, where the text behind its size is `after`. -/
theorem joined_chunk (chunk : Chunk) (fuel : Nat) (after : List Char) :
    joined (fuel + 1) (chunk.size ++ (crlf ++ after)) =
      match cutAt chunk.bytes.length after with
      | none => []
      | some (text, tail) => text ++ joined fuel (trimCrlf tail) := by
  have hsplit : splitOnce crlf (chunk.size ++ (crlf ++ after)) = some (chunk.size, after) :=
    Str.splitOnce_mark chunk.size_clear after
  have hpos : chunk.bytes.length ≠ 0 := fun h => chunk.nonempty (List.length_eq_zero_iff.mp h)
  rw [joined, hsplit]
  dsimp only
  rw [chunk.size_read]
  obtain ⟨n, hn⟩ : ∃ n, chunk.bytes.length = n + 1 := ⟨_, (Nat.succ_pred hpos).symm⟩
  rw [hn]
  rfl

/-! ## The chunks read back -/

theorem decoded_none : chars none (sent []) = '0' :: blank :=
  Utf8.chars_encode_all ('0' :: blank)

/-- What the first chunk decodes to: its size's line, and then its bytes with what follows them. -/
theorem decoded_cons (chunk : Chunk) (chunks : List Chunk) :
    chars none (sent (chunk :: chunks)) =
      chunk.size ++ (crlf ++ chars none (chunk.bytes ++ (code.encode crlf ++ sent chunks))) := by
  have hsent : sent (chunk :: chunks) = code.encode (chunk.size ++ crlf) ++
      (chunk.bytes ++ (code.encode crlf ++ sent chunks)) := by
    simp [sent, Chunk.sent]
  rw [hsent, Utf8.chars_encode, List.append_assoc]

/-- What is sent begins with a digit. -/
theorem decoded_sent (chunks : List Chunk) :
    ∃ c rest, chars none (sent chunks) = c :: rest ∧ c ≠ '\r' := by
  cases chunks with
  | nil => exact ⟨'0', blank, decoded_none, by decide⟩
  | cons chunk chunks =>
    obtain ⟨c, rest, hsize⟩ := List.exists_cons_of_ne_nil chunk.written.1
    refine ⟨c, _, (decoded_cons chunk chunks).trans (by rw [hsize]; rfl), ?_⟩
    rintro rfl
    exact chunk.size_clear (hsize ▸ List.mem_cons_self)

/-- **The chunks read as the body sent**, where each is a text by itself, and only there. -/
theorem joined_sent {chunks : List Chunk} {body : List Char}
    (hbody : chunks.flatMap Chunk.bytes = code.encode body) {fuel : Nat}
    (hfuel : (chars none (sent chunks)).length ≤ fuel) :
    joined fuel (chars none (sent chunks)) = body ↔ ∀ chunk ∈ chunks, chunk.Whole := by
  induction chunks generalizing body fuel with
  | nil =>
    obtain rfl : body = [] := Sync.Code.encode_eq_nil.mp hbody.symm
    rw [decoded_none] at hfuel ⊢
    obtain ⟨fuel, rfl⟩ : ∃ n, fuel = n + 1 := ⟨fuel - 1, by simp [blank, crlf] at hfuel; omega⟩
    have hsize : fromStrRadix 16 (2 ^ 64) (Text.trim (.ofList ['0'])).toList = some 0 := by decide
    rw [joined, show splitOnce crlf ('0' :: blank) = some (['0'], crlf) by decide]
    dsimp only
    rw [hsize]
    simp
  | cons chunk chunks ih =>
    rw [List.flatMap_cons] at hbody
    rw [decoded_cons] at hfuel ⊢
    obtain ⟨fuel, rfl⟩ : ∃ n, fuel = n + 1 :=
      ⟨fuel - 1, by simp only [List.length_append, crlf, List.length_cons] at hfuel; omega⟩
    rw [joined_chunk]
    rcases Sync.Code.encode_front hbody with ⟨text, after, rfl, htext, hafter⟩ |
      ⟨front, c, after, cut, left, rfl, hfront, hword, hcut, hleft, -⟩
    · -- the chunk is a text: the next one's size is what follows it
      have hwhole : chunk.Whole := ⟨text, htext⟩
      obtain ⟨next, more, hnext, hne⟩ := decoded_sent chunks
      have hdecoded : chars none (chunk.bytes ++ (code.encode crlf ++ sent chunks)) =
          text ++ (crlf ++ chars none (sent chunks)) := by
        rw [htext, Utf8.chars_encode, Utf8.chars_encode]
      have hround := cutAt_encode text 0 (crlf ++ chars none (sent chunks))
      rw [Nat.add_zero] at hround
      rw [hdecoded] at hfuel ⊢
      have hleft : (chars none (sent chunks)).length ≤ fuel := by
        simp only [List.length_append, crlf, List.length_cons] at hfuel
        omega
      have hcrlf (rest : List Char) : trimCrlf (crlf ++ rest) = trimCrlf rest := rfl
      rw [htext, hround]
      simp only [cutAt, Option.map_some, List.append_nil]
      rw [hcrlf, hnext, trimCrlf_cons hne, ← hnext, List.append_cancel_left_eq, List.forall_mem_cons,
        and_iff_right hwhole]
      exact ih hafter hleft
    · -- the chunk cuts `c`: its first bytes are one replacement character
      have hnot : ¬ ∀ chunk' ∈ chunk :: chunks, chunk'.Whole := by
        intro hall
        obtain ⟨text, htext⟩ := hall chunk List.mem_cons_self
        exact Sync.Code.encode_ne_cut hword hcut hleft (hfront.symm.trans htext)
      have hdecoded : chars none (chunk.bytes ++ (code.encode crlf ++ sent chunks)) =
          front ++ (Utf8.replacement :: chars none (code.encode crlf ++ sent chunks)) := by
        rw [hfront, List.append_assoc, Utf8.chars_encode]
        exact congrArg (front ++ ·) (Utf8.chars_cut hword hcut hleft (by decide) _)
      rw [hdecoded, hfront, List.length_append, cutAt_encode, iff_false_right hnot]
      cases hcutAt : cutAt cut.length
          (Utf8.replacement :: chars none (code.encode crlf ++ sent chunks)) with
      | none => simp
      | some read =>
        obtain ⟨hthree, more, hread⟩ :=
          cutAt_replacement (List.length_pos_iff.mpr hcut) hcutAt
        intro heq
        rw [Option.map_some] at heq
        dsimp only at heq
        rw [hread, List.append_assoc, List.append_cancel_left_eq] at heq
        -- the body holds the replacement character itself, which no three bytes cut
        have hc : Utf8.replacement = c := (List.cons.inj heq).1
        have hsize : (code.word c).length = 3 := by
          rw [← hc]
          decide
        have hpos := List.length_pos_iff.mpr hleft
        rw [hword, List.length_append] at hsize
        omega

/-! ## The response -/

/-- What a response decodes to. -/
theorem decoded_response (head : Head) (body : Bytes) :
    splitOnce blank (chars none (code.encode (head.text ++ blank) ++ body)) =
      some (head.text, chars none body) := by
  rw [Utf8.chars_encode, List.append_assoc]
  exact head.split _

/-- **A chunked answer reads as what was sent** exactly where no cut falls inside a character; sent
    plain, it always does. -/
theorem chunked_read_iff {body : List Char} {chunks : List Chunk}
    (hbody : chunks.flatMap Chunk.bytes = code.encode body) :
    (∀ head : Head, chunked head.text = false → bodyOf (plainResponse head body) = .ok body) ∧
      ∀ head : Head, chunked head.text = true →
        (bodyOf (chunkedResponse head chunks) = .ok body ↔ ∀ chunk ∈ chunks, chunk.Whole) := by
  constructor
  · intro head hplain
    unfold bodyOf plainResponse
    rw [decoded_response, Utf8.chars_encode_all]
    dsimp only
    rw [head.ok, hplain]
    rfl
  · intro head hchunked
    have hjoined : bodyOf (chunkedResponse head chunks) =
        .ok (dechunked (chars none (sent chunks))) := by
      unfold bodyOf chunkedResponse
      rw [decoded_response]
      dsimp only
      rw [head.ok, hchunked]
      rfl
    rw [hjoined, Except.ok.injEq]
    exact joined_sent hbody (Nat.le_refl _)

/-- A head that says its body is chunked. -/
def chunkedHead : Head where
  text := "HTTP/1.1 200 OK\r\ntransfer-encoding: chunked".toList
  ended := by decide +kernel
  ok := by decide +kernel

/-- A chunk of one byte. -/
def oneByte (byte : UInt8) : Chunk := .of [byte] (List.cons_ne_nil _ _) (show 1 < 2 ^ 64 by decide)

/-- Two letters, each a chunk. -/
theorem chunked_read_letters :
    bodyOf (chunkedResponse chunkedHead [oneByte 104, oneByte 105]) = .ok ['h', 'i'] := by
  refine ((chunked_read_iff (by decide +kernel)).2 chunkedHead (by decide +kernel)).mpr ?_
  intro chunk hchunk
  rcases List.mem_cons.mp hchunk with rfl | hchunk
  · exact ⟨['h'], by decide⟩
  · rw [List.mem_singleton.mp hchunk]
    exact ⟨['i'], by decide⟩

/-- **A character cut in two is lost**: `é`, sent as its two bytes. -/
theorem not_chunked_read :
    ¬ ∀ (body : List Char) (chunks : List Chunk) (head : Head),
      chunks.flatMap Chunk.bytes = code.encode body → chunked head.text = true →
        bodyOf (chunkedResponse head chunks) = .ok body := by
  intro h
  have hread := h ['é'] [oneByte 0xC3, oneByte 0xA9] chunkedHead (by decide) (by decide +kernel)
  have hnone : (bodyOf (chunkedResponse chunkedHead [oneByte 0xC3, oneByte 0xA9])).toOption =
      some [] := by decide +kernel
  rw [hread] at hnone
  cases hnone

end Yunta.Hook
