/-
  Bytes read as text, as `String::from_utf8_lossy` reads them.

  The bytes are read from the front.  A lead byte says how many continuation bytes its character
  still needs and which range the next one lies in; where the next byte lies outside it, or the
  bytes end, what was read so far is one replacement character and the byte is read again as a lead
  byte.  Bytes that are ASCII read as the characters they are (`lossy_ascii`), and those are stored
  as the bytes they were (`utf8_ascii`).

  Written, every text is the words of its characters (`utf8_eq_encode`), and these say where they
  begin: `code` is the code UTF-8 is.  A text written is read back, whatever follows it
  (`chars_encode`), and a character cut short is one replacement (`chars_cut`).
-/
import Yunta.Lib.Framing
import Yunta.Lib.Sync

set_option linter.unusedVariables false

namespace Utf8

open Framing

/-- A character begun: how many bytes it still needs, the bits read so far, and the range the next
    byte has to lie in. -/
structure Begun where
  need : Nat
  bits : Nat
  low : Nat := 0x80
  high : Nat := 0xBF

/-- `U+FFFD`. -/
def replacement : Char := Char.ofNat 0xFFFD

/-- A byte read where no character is begun: the characters it gives, and the one it begins. -/
def lead (byte : UInt8) : List Char × Option Begun :=
  let n := byte.toNat
  if n < 0x80 then ([Char.ofNat n], none)
  else if n < 0xC2 then ([replacement], none)
  else if n < 0xE0 then ([], some { need := 1, bits := n - 0xC0 })
  else if n = 0xE0 then ([], some { need := 2, bits := 0, low := 0xA0 })
  else if n = 0xED then ([], some { need := 2, bits := 0xD, high := 0x9F })
  else if n < 0xF0 then ([], some { need := 2, bits := n - 0xE0 })
  else if n = 0xF0 then ([], some { need := 3, bits := 0, low := 0x90 })
  else if n < 0xF4 then ([], some { need := 3, bits := n - 0xF0 })
  else if n = 0xF4 then ([], some { need := 3, bits := 4, high := 0x8F })
  else ([replacement], none)

/-- A byte read after what is begun. -/
def next : Option Begun → UInt8 → List Char × Option Begun
  | none, byte => lead byte
  | some begun, byte =>
    let n := byte.toNat
    if begun.low ≤ n ∧ n ≤ begun.high then
      let bits := begun.bits * 64 + (n - 0x80)
      if begun.need = 1 then ([Char.ofNat bits], none)
      else ([], some { need := begun.need - 1, bits := bits })
    else (replacement :: (lead byte).1, (lead byte).2)

def chars : Option Begun → Bytes → List Char
  | none, [] => []
  | some _, [] => [replacement]
  | begun, byte :: bytes => (next begun byte).1 ++ chars (next begun byte).2 bytes

/-- `String::from_utf8_lossy`. -/
def lossy (bytes : Bytes) : String := .ofList (chars none bytes)

/-! ## ASCII -/

/-- The character an ASCII byte is. -/
def asciiChar (byte : UInt8) : Char := Char.ofNat byte.toNat

theorem toNat_asciiChar {byte : UInt8} (h : byte.toNat < 0x80) :
    (asciiChar byte).toNat = byte.toNat := by
  have hall : ∀ n < 0x80, (Char.ofNat n).toNat = n := by decide
  exact hall byte.toNat h

theorem lead_ascii {byte : UInt8} (h : byte.toNat < 0x80) :
    lead byte = ([asciiChar byte], none) := by
  show (if byte.toNat < 0x80 then ([Char.ofNat byte.toNat], none) else _) = _
  rw [if_pos h]
  rfl

/-- **ASCII bytes are the characters they spell.** -/
theorem chars_ascii {bytes : Bytes} (h : ∀ byte ∈ bytes, byte.toNat < 0x80) :
    chars none bytes = bytes.map asciiChar := by
  induction bytes with
  | nil => rfl
  | cons byte bytes ih =>
    have hlead : next none byte = ([asciiChar byte], none) := lead_ascii (h byte List.mem_cons_self)
    rw [chars, hlead, ih fun b hb => h b (List.mem_cons_of_mem _ hb)]
    rfl

theorem lossy_ascii {bytes : Bytes} (h : ∀ byte ∈ bytes, byte.toNat < 0x80) :
    lossy bytes = .ofList (bytes.map asciiChar) := by
  rw [lossy, chars_ascii h]

/-- The text ASCII bytes spell is stored as those bytes. -/
theorem utf8_ascii {bytes : Bytes} (h : ∀ byte ∈ bytes, byte.toNat < 0x80) :
    utf8 (.ofList (bytes.map asciiChar)) = bytes := by
  have hbyte : ∀ byte ∈ bytes, String.utf8EncodeChar (asciiChar byte) = [byte] := by
    intro byte hmem
    have hlt := h byte hmem
    have hval : (asciiChar byte).val.toNat = byte.toNat := toNat_asciiChar hlt
    show (if (asciiChar byte).val.toNat ≤ 127 then [UInt8.ofNat _] else _) = _
    rw [hval, if_pos (by omega), UInt8.ofNat_toNat]
  have hencode : utf8 (.ofList (bytes.map asciiChar)) =
      (bytes.map asciiChar).flatMap String.utf8EncodeChar := by
    simp [utf8, String.toByteArray_ofList, List.utf8Encode]
  rw [hencode, List.flatMap_map]
  clear hencode
  induction bytes with
  | nil => rfl
  | cons byte bytes ih =>
    rw [List.flatMap_cons, hbyte byte List.mem_cons_self,
      ih (fun b hb => h b (List.mem_cons_of_mem _ hb))
        fun b hb => hbyte b (List.mem_cons_of_mem _ hb)]
    rfl

/-- A byte that is no character's, a character cut short, and a whole one. -/
example : chars none [99, 0xFF, 0xE2, 0x82, 46, 0xC3, 0xA9] =
    ['c', replacement, replacement, '.', 'é'] := by
  decide +kernel

/-! ## The code -/

/-- A word of UTF-8 is not the front of another. -/
theorem word_apart {c d : Char} {rest other : Bytes}
    (h : String.utf8EncodeChar c ++ rest = String.utf8EncodeChar d ++ other) : c = d := by
  have hread : ∀ (c : Char) (rest : Bytes),
      ByteArray.utf8DecodeChar? (String.utf8EncodeChar c ++ rest).toByteArray 0 = some c := by
    intro c rest
    rw [List.toByteArray_append]
    exact ByteArray.utf8DecodeChar?_utf8EncodeChar_append
  have hfirst := hread c rest
  rw [h, hread d other] at hfirst
  exact (Option.some.inj hfirst).symm

/-- UTF-8: what opens a word is a byte no word holds later on. -/
def code : Sync.Code Char UInt8 where
  word := String.utf8EncodeChar
  opens := UInt8.IsUTF8FirstByte
  opening := by
    intro c
    have hpos : 0 < (String.utf8EncodeChar c).length := by
      rw [String.length_utf8EncodeChar]
      exact c.utf8Size_pos
    obtain ⟨b, rest, heq⟩ := List.exists_cons_of_ne_nil (List.ne_nil_of_length_pos hpos)
    refine ⟨b, rest, heq, ?_, fun later hlater => ?_⟩
    · have hzero : ((String.utf8EncodeChar c)[0]).IsUTF8FirstByte :=
        UInt8.isUTF8FirstByte_getElem_utf8EncodeChar.mpr rfl
      simpa [heq] using hzero
    · obtain ⟨i, hi, rfl⟩ := List.mem_iff_getElem.mp hlater
      have hlt : i + 1 < (String.utf8EncodeChar c).length := by
        rw [heq, List.length_cons]
        omega
      intro hopens
      have hsame : ((String.utf8EncodeChar c)[i + 1]).IsUTF8FirstByte := by
        simpa [heq] using hopens
      exact absurd (UInt8.isUTF8FirstByte_getElem_utf8EncodeChar.mp hsame) (by omega)
  apart := fun c d rest other h => word_apart h

/-- **A text is stored as the words of its characters.** -/
theorem utf8_eq_encode (text : String) : utf8 text = code.encode text.toList := by
  have h : ∀ chars : List Char, utf8 (.ofList chars) = chars.flatMap String.utf8EncodeChar := by
    intro chars
    simp [utf8, String.toByteArray_ofList, List.utf8Encode]
  have htext := h text.toList
  rwa [String.ofList_toList] at htext

/-! ## Texts read back -/

/-- What bytes give, read from a state, and the state they leave. -/
def reads : Option Begun → Bytes → List Char × Option Begun
  | state, [] => ([], state)
  | state, byte :: bytes =>
    ((next state byte).1 ++ (reads (next state byte).2 bytes).1, (reads (next state byte).2 bytes).2)

theorem chars_append (state : Option Begun) (bytes more : Bytes) :
    chars state (bytes ++ more) = (reads state bytes).1 ++ chars (reads state bytes).2 more := by
  induction bytes generalizing state with
  | nil => simp [reads]
  | cons byte bytes ih => rw [List.cons_append, chars, ih, reads, List.append_assoc]

/-- The bytes spell `c` from a state: each but the last leaves more to read. -/
def Spells (c : Char) : Option Begun → Bytes → Prop
  | _, [] => False
  | state, [byte] => next state byte = ([c], none)
  | state, byte :: bytes =>
    ∃ begun, next state byte = ([], some begun) ∧ 0x80 ≤ begun.low ∧ Spells c (some begun) bytes

theorem Spells.reads {c : Char} {state : Option Begun} {bytes : Bytes} (h : Spells c state bytes) :
    reads state bytes = ([c], none) := by
  induction bytes generalizing state with
  | nil => cases h
  | cons byte bytes ih =>
    cases bytes with
    | nil =>
      rw [Utf8.reads, show next state byte = ([c], none) from h]
      rfl
    | cons later bytes =>
      obtain ⟨begun, hnext, -, hrest⟩ := h
      rw [Utf8.reads, hnext, ih hrest]
      rfl

/-- A front of what spells a character leaves one begun. -/
theorem Spells.front {c : Char} {state : Option Begun} {front rest : Bytes}
    (h : Spells c state (front ++ rest)) (hfront : front ≠ []) (hrest : rest ≠ []) :
    ∃ begun, Utf8.reads state front = ([], some begun) ∧ 0x80 ≤ begun.low := by
  induction front generalizing state with
  | nil => exact absurd rfl hfront
  | cons byte front ih =>
    obtain ⟨later, bytes, heq⟩ := List.exists_cons_of_ne_nil
      (List.append_ne_nil_of_right_ne_nil front hrest)
    rw [List.cons_append, heq] at h
    obtain ⟨begun, hnext, hlow, hspells⟩ := h
    cases front with
    | nil =>
      refine ⟨begun, ?_, hlow⟩
      rw [Utf8.reads, hnext]
      rfl
    | cons byte' front =>
      rw [← heq] at hspells
      obtain ⟨begun', hreads, hlow'⟩ := ih hspells (List.cons_ne_nil _ _)
      refine ⟨begun', ?_, hlow'⟩
      rw [Utf8.reads, hnext, hreads]
      rfl

theorem toNat_ofNat {n : Nat} (h : n < 256) : (UInt8.ofNat n).toNat = n := by
  rw [UInt8.toNat_ofNat']
  omega

/-- A continuation byte in its range is six bits more. -/
theorem next_between {begun : Begun} {n : Nat} (hlow : begun.low ≤ n) (hhigh : n ≤ begun.high)
    (hn : n < 256) : next (some begun) (UInt8.ofNat n) =
      if begun.need = 1 then ([Char.ofNat (begun.bits * 64 + (n - 0x80))], none)
      else ([], some { need := begun.need - 1, bits := begun.bits * 64 + (n - 0x80) }) := by
  simp only [next, toNat_ofNat hn]
  rw [if_pos ⟨hlow, hhigh⟩]

/-- The first of three bytes: the second one's range leaves out the surrogates and what two bytes
    already spell. -/
theorem lead_three {v : Nat} (hfrom : 0x800 ≤ v) (hto : v ≤ 0xFFFF)
    (hsurrogate : v < 0xD800 ∨ 0xDFFF < v) :
    ∃ begun, lead (UInt8.ofNat (v / 4096 % 16 + 0xE0)) = ([], some begun) ∧ begun.need = 2 ∧
      begun.bits = v / 4096 ∧ 0x80 ≤ begun.low ∧ begun.low ≤ v / 64 % 64 + 0x80 ∧
      v / 64 % 64 + 0x80 ≤ begun.high := by
  simp only [lead, toNat_ofNat (show v / 4096 % 16 + 0xE0 < 256 by omega)]
  rw [if_neg (by omega), if_neg (by omega), if_neg (by omega)]
  split
  · refine ⟨_, rfl, rfl, ?_, ?_, ?_, ?_⟩ <;> dsimp only <;> omega
  split
  · refine ⟨_, rfl, rfl, ?_, ?_, ?_, ?_⟩ <;> dsimp only <;> omega
  · rw [if_pos (by omega)]
    refine ⟨_, rfl, rfl, ?_, ?_, ?_, ?_⟩ <;> dsimp only <;> omega

/-- The first of four bytes: the second one's range leaves out what three bytes already spell and
    what is past the last character. -/
theorem lead_four {v : Nat} (hfrom : 0x10000 ≤ v) (hto : v ≤ 0x10FFFF) :
    ∃ begun, lead (UInt8.ofNat (v / 262144 % 8 + 0xF0)) = ([], some begun) ∧ begun.need = 3 ∧
      begun.bits = v / 262144 ∧ 0x80 ≤ begun.low ∧ begun.low ≤ v / 4096 % 64 + 0x80 ∧
      v / 4096 % 64 + 0x80 ≤ begun.high := by
  simp only [lead, toNat_ofNat (show v / 262144 % 8 + 0xF0 < 256 by omega)]
  rw [if_neg (by omega), if_neg (by omega), if_neg (by omega), if_neg (by omega),
    if_neg (by omega), if_neg (by omega)]
  split
  · refine ⟨_, rfl, rfl, ?_, ?_, ?_, ?_⟩ <;> dsimp only <;> omega
  split
  · refine ⟨_, rfl, rfl, ?_, ?_, ?_, ?_⟩ <;> dsimp only <;> omega
  · rw [if_pos (by omega)]
    refine ⟨_, rfl, rfl, ?_, ?_, ?_, ?_⟩ <;> dsimp only <;> omega

/-- **The bytes of a character spell it.** -/
theorem spells_word (c : Char) : Spells c none (String.utf8EncodeChar c) := by
  have hvalid := c.valid
  have hc : Char.ofNat c.val.toNat = c := Char.ofNat_toNat c
  unfold UInt32.isValidChar Nat.isValidChar at hvalid
  generalize hv : c.val.toNat = v at hvalid hc
  unfold String.utf8EncodeChar
  rw [hv]
  dsimp only
  split
  · next hone =>
    show lead _ = _
    simp only [lead, toNat_ofNat (show v < 256 by omega)]
    rw [if_pos (by omega), hc]
  split
  · next hone htwo =>
    have hmod : v / 64 % 32 = v / 64 := by omega
    refine ⟨{ need := 1, bits := v / 64 }, ?_, Nat.le_refl _, ?_⟩
    · show lead _ = _
      simp only [lead, toNat_ofNat (show v / 64 % 32 + 0xC0 < 256 by omega)]
      rw [if_neg (by omega), if_neg (by omega), if_pos (by omega), hmod, Nat.add_sub_cancel]
    · refine (next_between (by dsimp only; omega) (by dsimp only; omega) (by omega)).trans ?_
      rw [if_pos rfl, Nat.add_sub_cancel, show v / 64 * 64 + v % 64 = v by omega, hc]
  split
  · next hone htwo hthree =>
    obtain ⟨begun, hread, hneed, hbits, hlow, hfrom, hto⟩ :=
      lead_three (show 0x800 ≤ v by omega) (by omega) (by omega)
    refine ⟨begun, hread, hlow, { need := 1, bits := v / 64 }, ?_, Nat.le_refl _, ?_⟩
    · refine (next_between hfrom hto (by omega)).trans ?_
      rw [if_neg (by omega), hneed, hbits, Nat.add_sub_cancel,
        show v / 4096 * 64 + v / 64 % 64 = v / 64 by omega]
    · refine (next_between (by dsimp only; omega) (by dsimp only; omega) (by omega)).trans ?_
      rw [if_pos rfl, Nat.add_sub_cancel, show v / 64 * 64 + v % 64 = v by omega, hc]
  · next hone htwo hthree =>
    obtain ⟨begun, hread, hneed, hbits, hlow, hfrom, hto⟩ :=
      lead_four (show 0x10000 ≤ v by omega) (by omega)
    refine ⟨begun, hread, hlow, { need := 2, bits := v / 4096 }, ?_, Nat.le_refl _,
      { need := 1, bits := v / 64 }, ?_, Nat.le_refl _, ?_⟩
    · refine (next_between hfrom hto (by omega)).trans ?_
      rw [if_neg (by omega), hneed, hbits, Nat.add_sub_cancel,
        show v / 262144 * 64 + v / 4096 % 64 = v / 4096 by omega]
    · refine (next_between (by dsimp only; omega) (by dsimp only; omega) (by omega)).trans ?_
      rw [if_neg (by dsimp only; omega), Nat.add_sub_cancel,
        show v / 4096 * 64 + v / 64 % 64 = v / 64 by omega]
      rfl
    · refine (next_between (by dsimp only; omega) (by dsimp only; omega) (by omega)).trans ?_
      rw [if_pos rfl, Nat.add_sub_cancel, show v / 64 * 64 + v % 64 = v by omega, hc]

/-- **A text written is read back**, whatever follows it. -/
theorem chars_encode (text : List Char) (more : Bytes) :
    chars none (code.encode text ++ more) = text ++ chars none more := by
  induction text with
  | nil => rfl
  | cons c text ih =>
    have hword : reads none (code.word c) = ([c], none) := (spells_word c).reads
    rw [Sync.Code.encode_cons, List.append_assoc, chars_append, hword, ih]
    rfl

theorem chars_encode_all (text : List Char) : chars none (code.encode text) = text := by
  have hread := chars_encode text []
  rwa [List.append_nil, show chars none [] = [] from rfl, List.append_nil] at hread

/-- **A character cut short is one replacement**, where what follows begins another. -/
theorem chars_cut {c : Char} {front rest : Bytes} (hword : String.utf8EncodeChar c = front ++ rest)
    (hfront : front ≠ []) (hrest : rest ≠ []) {byte : UInt8} (hbyte : byte.toNat < 0x80)
    (more : Bytes) :
    chars none (front ++ byte :: more) = replacement :: chars none (byte :: more) := by
  obtain ⟨begun, hreads, hlow⟩ := (hword ▸ spells_word c).front hfront hrest
  rw [chars_append, hreads, List.nil_append, chars, chars]
  have hout : ¬ (begun.low ≤ byte.toNat ∧ byte.toNat ≤ begun.high) := by omega
  simp only [next]
  rw [if_neg hout]
  rfl

end Utf8
