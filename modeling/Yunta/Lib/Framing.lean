/-
  Length-prefixed framing of byte strings, and why it can be read back.

  `frame` writes the decimal length of a byte string, a colon, the bytes, and a semicolon.  A colon
  is no decimal digit, so the length ends at the first one, and the length says where the bytes end:
  a frame is split off the front of whatever follows it (`frame_append_inj`).  Two lists of framed
  strings are therefore equal as soon as what they write is (`frames_inj`).
-/
import Std.Data.String.ToInt
import Mathlib.Data.List.Basic

set_option linter.unusedVariables false

namespace Framing

/-- A string of bytes. -/
abbrev Bytes := List UInt8

/-- The bytes a string is stored as. -/
def utf8 (s : String) : Bytes := s.toByteArray.data.toList

theorem utf8_inj {s t : String} (h : utf8 s = utf8 t) : s = t := by
  have hdata : s.toByteArray.data = t.toByteArray.data := Array.toList_inj.mp h
  exact String.toByteArray_inj.mp (ByteArray.ext hdata)

/-! ## Decimal digits -/

/-- The decimal digits of a number. -/
def decimal (n : Nat) : Bytes := utf8 (toString n)

theorem decimal_inj {m n : Nat} (h : decimal m = decimal n) : m = n :=
  Nat.repr_injective (utf8_inj h)

/-- The byte of a digit. -/
def digitByte (d : Nat) : UInt8 := UInt8.ofNat (48 + d)

theorem toNat_digitByte {d : Nat} (h : d < 10) : (digitByte d).toNat = 48 + d := by
  show (48 + d) % 256 = 48 + d
  omega

theorem utf8EncodeChar_digitChar {d : Nat} (h : d < 10) :
    String.utf8EncodeChar d.digitChar = [digitByte d] := by
  revert d
  decide

theorem decimal_eq_flatMap (n : Nat) :
    decimal n = (Nat.toDigits 10 n).flatMap String.utf8EncodeChar := by
  show (toString n).toByteArray.data.toList = _
  rw [Nat.toString_eq_repr, Nat.repr_eq_ofList_toDigits]
  simp [String.toByteArray_ofList, List.utf8Encode]

/-- A number of one digit. -/
theorem decimal_of_lt {n : Nat} (h : n < 10) : decimal n = [digitByte n] := by
  rw [decimal_eq_flatMap, Nat.toDigits_of_lt_base h]
  simp [utf8EncodeChar_digitChar h]

/-- The last digit of a number stands after the others. -/
theorem decimal_of_le {n : Nat} (h : 10 ≤ n) :
    decimal n = decimal (n / 10) ++ [digitByte (n % 10)] := by
  have hdigit : n % 10 < 10 := Nat.mod_lt n (by omega)
  rw [decimal_eq_flatMap, decimal_eq_flatMap, Nat.toDigits_of_base_le (by omega) h]
  simp [utf8EncodeChar_digitChar hdigit]

/-- Every byte of a decimal is a digit's. -/
theorem digit_of_mem_decimal (n : Nat) {byte : UInt8} (h : byte ∈ decimal n) :
    48 ≤ byte.toNat ∧ byte.toNat ≤ 57 := by
  induction n using Nat.strongRecOn with
  | ind n ih =>
    by_cases hn : n < 10
    · rw [decimal_of_lt hn, List.mem_singleton] at h
      rw [h, toNat_digitByte hn]
      omega
    · rw [decimal_of_le (Nat.le_of_not_lt hn)] at h
      rcases List.mem_append.mp h with h | h
      · exact ih (n / 10) (by omega) h
      · have hdigit : n % 10 < 10 := Nat.mod_lt n (by omega)
        rw [List.mem_singleton.mp h, toNat_digitByte hdigit]
        omega

theorem notMem_decimal (n : Nat) {mark : UInt8} (h : mark.toNat < 48 ∨ 57 < mark.toNat) :
    mark ∉ decimal n := fun hmem => by
  have := digit_of_mem_decimal n hmem
  omega

theorem colon_notMem_decimal (n : Nat) : (58 : UInt8) ∉ decimal n :=
  notMem_decimal n (Or.inr (by decide))

theorem decimal_ne_nil (n : Nat) : decimal n ≠ [] := by
  by_cases hn : n < 10
  · simp [decimal_of_lt hn]
  · simp [decimal_of_le (Nat.le_of_not_lt hn)]

/-! ## Frames -/

/-- `len:bytes;`, the length in decimal. -/
def frame (bytes : Bytes) : Bytes := decimal bytes.length ++ 58 :: (bytes ++ [59])

/-- What stands before the first mark is read off a string that has one. -/
theorem append_mark_inj {mark : UInt8} :
    ∀ {a b s t : Bytes}, mark ∉ a → mark ∉ b → a ++ mark :: s = b ++ mark :: t → a = b ∧ s = t
  | [], [], s, t, _, _, h => ⟨rfl, (List.cons.inj h).2⟩
  | [], y :: b, s, t, _, hb, h => by
    have hy : mark = y := (List.cons.inj h).1
    exact absurd (by rw [hy]; exact List.mem_cons_self ..) hb
  | x :: a, [], s, t, ha, _, h => by
    have hx : x = mark := (List.cons.inj h).1
    exact absurd (by rw [hx]; exact List.mem_cons_self ..) ha
  | x :: a, y :: b, s, t, ha, hb, h => by
    obtain ⟨rfl, hrest⟩ := List.cons.inj h
    obtain ⟨rfl, rfl⟩ := append_mark_inj (List.not_mem_of_not_mem_cons ha)
      (List.not_mem_of_not_mem_cons hb) hrest
    exact ⟨rfl, rfl⟩

/-- **A frame is split off the front** of whatever follows it. -/
theorem frame_append_inj {a b s t : Bytes} (h : frame a ++ s = frame b ++ t) : a = b ∧ s = t := by
  simp only [frame, List.append_assoc, List.cons_append] at h
  obtain ⟨hlen, hrest⟩ :=
    append_mark_inj (colon_notMem_decimal a.length) (colon_notMem_decimal b.length) h
  obtain ⟨rfl, htail⟩ := List.append_inj hrest (decimal_inj hlen)
  exact ⟨rfl, (List.cons.inj htail).2⟩

theorem frame_ne_nil (a : Bytes) : frame a ≠ [] := by
  simp [frame]

/-- Each of `fields` framed, one after the other. -/
def frames (fields : List Bytes) : Bytes := fields.flatMap frame

/-- **What a list of frames writes says what the list is.** -/
theorem frames_inj : ∀ {fs gs : List Bytes}, frames fs = frames gs → fs = gs
  | [], [], _ => rfl
  | [], g :: gs, h => by
    have hnil : frame g ++ frames gs = [] := h.symm
    exact absurd (List.append_eq_nil_iff.mp hnil).1 (frame_ne_nil g)
  | f :: fs, [], h => by
    have hnil : frame f ++ frames fs = [] := h
    exact absurd (List.append_eq_nil_iff.mp hnil).1 (frame_ne_nil f)
  | f :: fs, g :: gs, h => by
    have hframes : frame f ++ frames fs = frame g ++ frames gs := h
    obtain ⟨rfl, hrest⟩ := frame_append_inj hframes
    rw [frames_inj hrest]

end Framing
