/-
  Codes whose words say where they begin.

  A code writes each symbol as a word.  `Code` asks that a word opens with a mark no word holds later
  on, and that no word is the front of another.  Then what is written can be cut at a mark alone
  (`suffix_encode`), and a text is found at the front of what is written exactly where its own symbols
  stand at the front (`encode_prefix`): searching the words is searching the symbols.
-/
import Mathlib.Data.List.Infix

set_option linter.unusedVariables false

namespace Sync

variable {α β : Type*}

/-- A code from symbols to words of marks. -/
structure Code (α β : Type*) where
  word : α → List β
  /-- What a word opens with. -/
  opens : β → Prop
  opening : ∀ a, ∃ b rest, word a = b :: rest ∧ opens b ∧ ∀ c ∈ rest, ¬ opens c
  apart : ∀ a a' x x', word a ++ x = word a' ++ x' → a = a'

namespace Code

variable (code : Code α β)

/-- The words of a text, one after the other. -/
def encode (text : List α) : List β := text.flatMap code.word

@[simp] theorem encode_nil : code.encode [] = [] := rfl

@[simp] theorem encode_cons (a : α) (text : List α) :
    code.encode (a :: text) = code.word a ++ code.encode text := rfl

@[simp] theorem encode_append (text more : List α) :
    code.encode (text ++ more) = code.encode text ++ code.encode more := List.flatMap_append

variable {code}

theorem word_ne_nil (a : α) : code.word a ≠ [] := by
  obtain ⟨b, rest, heq, -⟩ := code.opening a
  rw [heq]
  exact List.cons_ne_nil b rest

/-- A symbol whose word is one mark: no other word holds it. -/
theorem mark_not_mem {a : α} {m : β} (h : code.word a = [m]) {c : α} (hc : c ≠ a) :
    ∀ b ∈ code.word c, b ≠ m := by
  rintro b hb rfl
  obtain ⟨m, rest, heq, hm, -⟩ := code.opening a
  obtain ⟨rfl, rfl⟩ := List.cons.inj (heq.symm.trans h)
  obtain ⟨first, later, hword, -, hlater⟩ := code.opening c
  rw [hword] at hb
  rcases List.mem_cons.mp hb with rfl | hb
  · refine hc (code.apart c a [] later ?_)
    rw [hword, heq]
    simp
  · exact hlater _ hb hm

@[simp] theorem encode_eq_nil {text : List α} : code.encode text = [] ↔ text = [] := by
  cases text with
  | nil => simp
  | cons a text => simp [word_ne_nil]

/-- **A text found at the front** of what is written is the front of what was. -/
theorem encode_prefix {front text : List α} {rest : List β}
    (h : code.encode front ++ rest = code.encode text) :
    ∃ tail, text = front ++ tail ∧ rest = code.encode tail := by
  induction front generalizing text with
  | nil => exact ⟨text, rfl, h⟩
  | cons a front ih =>
    cases text with
    | nil =>
      rw [encode_cons, List.append_assoc] at h
      exact absurd (List.append_eq_nil_iff.mp h).1 (word_ne_nil a)
    | cons a' text =>
      rw [encode_cons, encode_cons, List.append_assoc] at h
      obtain rfl := code.apart a a' _ _ h
      obtain ⟨tail, rfl, hrest⟩ := ih (List.append_cancel_left h)
      exact ⟨tail, rfl, hrest⟩

/-- **What is written is cut at an opening mark alone.** -/
theorem suffix_encode {b : β} {rest : List β} (hb : code.opens b) {text : List α}
    (h : b :: rest <:+ code.encode text) :
    ∃ tail, tail <:+ text ∧ b :: rest = code.encode tail := by
  induction text with
  | nil => exact absurd (List.suffix_nil.mp h) (List.cons_ne_nil b rest)
  | cons a text ih =>
    obtain ⟨before, hbefore⟩ := h
    rw [encode_cons] at hbefore
    rcases List.append_eq_append_iff.mp hbefore with ⟨left, hword, hrest⟩ | ⟨left, hlong, htext⟩
    · obtain ⟨opening, later, heq, -, hlater⟩ := code.opening a
      cases left with
      | nil =>
        obtain ⟨tail, htail, hcut⟩ := ih ⟨[], by rw [hrest]; rfl⟩
        exact ⟨tail, htail.trans (List.suffix_cons a text), hcut⟩
      | cons c left =>
        obtain ⟨rfl, hrest⟩ := List.cons.inj hrest
        cases before with
        | nil =>
          refine ⟨a :: text, List.suffix_refl _, ?_⟩
          rw [encode_cons, hword, hrest]
          rfl
        | cons d before =>
          -- the mark stands inside a word
          rw [heq] at hword
          have hmem : b ∈ later := by
            rw [(List.cons.inj hword).2]
            simp
          exact absurd hb (hlater b hmem)
    · obtain ⟨tail, htail, hcut⟩ := ih ⟨left, htext.symm⟩
      exact ⟨tail, htail.trans (List.suffix_cons a text), hcut⟩

/-- A text found anywhere in what is written was there. -/
theorem encode_infix {before rest : List β} {text whole : List α} (htext : text ≠ [])
    (h : before ++ (code.encode text ++ rest) = code.encode whole) :
    ∃ front tail, whole = front ++ (text ++ tail) ∧ before = code.encode front ∧
      rest = code.encode tail := by
  obtain ⟨a, later, rfl⟩ := List.exists_cons_of_ne_nil htext
  obtain ⟨b, word, heq, hb, -⟩ := code.opening a
  have hsuffix : b :: (word ++ code.encode later ++ rest) <:+ code.encode whole := by
    refine ⟨before, ?_⟩
    rw [← h, encode_cons, heq]
    simp
  obtain ⟨cut, ⟨front, rfl⟩, hcut⟩ := suffix_encode hb hsuffix
  have hfound : code.encode (a :: later) ++ rest = code.encode cut := by
    rw [← hcut, encode_cons, heq]
    simp
  obtain ⟨tail, rfl, hrest⟩ := encode_prefix hfound
  refine ⟨front, tail, rfl, ?_, hrest⟩
  rw [encode_append, ← hfound] at h
  exact List.append_cancel_right h

/-- **The front of what is written is a text's, or it ends inside a word.** -/
theorem encode_front {front rest : List β} {text : List α} (h : front ++ rest = code.encode text) :
    (∃ before after, text = before ++ after ∧ front = code.encode before ∧
      rest = code.encode after) ∨
    ∃ before a after cut left, text = before ++ a :: after ∧ front = code.encode before ++ cut ∧
      code.word a = cut ++ left ∧ cut ≠ [] ∧ left ≠ [] ∧ rest = left ++ code.encode after := by
  induction text generalizing front with
  | nil =>
    obtain ⟨rfl, rfl⟩ := List.append_eq_nil_iff.mp h
    exact Or.inl ⟨[], [], rfl, rfl, rfl⟩
  | cons a text ih =>
    rw [encode_cons] at h
    rcases List.append_eq_append_iff.mp h with ⟨left, hword, rfl⟩ | ⟨more, rfl, htext⟩
    · by_cases hcut : front = []
      · subst hcut
        exact Or.inl ⟨[], a :: text, rfl, rfl, by rw [encode_cons, hword]; rfl⟩
      by_cases hleft : left = []
      · subst hleft
        rw [List.append_nil] at hword
        exact Or.inl ⟨[a], text, rfl, by simp [hword], rfl⟩
      · exact Or.inr ⟨[], a, text, front, left, rfl, rfl, hword, hcut, hleft, rfl⟩
    · rcases ih htext.symm with ⟨before, after, rfl, rfl, rfl⟩ |
        ⟨before, b, after, cut, left, rfl, rfl, hcut⟩
      · exact Or.inl ⟨a :: before, after, rfl, rfl, rfl⟩
      · exact Or.inr ⟨a :: before, b, after, cut, left, rfl, by simp, hcut⟩

/-- A word cut short is the end of no text. -/
theorem encode_ne_cut {before text : List α} {a : α} {cut left : List β}
    (hword : code.word a = cut ++ left) (hcut : cut ≠ []) (hleft : left ≠ []) :
    code.encode before ++ cut ≠ code.encode text := by
  intro h
  obtain ⟨tail, -, htail⟩ := encode_prefix h
  cases tail with
  | nil => exact hcut htail
  | cons a' tail =>
    rw [encode_cons] at htail
    have hsame : code.word a ++ [] = code.word a' ++ (code.encode tail ++ left) := by
      rw [List.append_nil, hword, htail, List.append_assoc]
    obtain rfl := code.apart a a' _ _ hsame
    have hnil : [] = code.encode tail ++ left := List.append_cancel_left hsame
    exact hleft (List.append_eq_nil_iff.mp hnil.symm).2

end Code

end Sync
