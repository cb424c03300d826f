/-
  Matching a whole text against a pattern with one wildcard, which stands for any run of symbols.

  1. **The dialect** — `Matches star pattern text`: the wildcard takes any run, every other symbol
     is literal, and both ends are anchored.

  2. **The algorithm** — `scan` walks both lists and falls back to the last wildcard alone: it
     never goes further back.

  3. **Main result** — `scan_iff`: falling back to the last wildcard is enough, since what an
     earlier one could still reach, the last one reaches too.

  4. **What it means** — a text is selected when it is the pattern's literal pieces in order, with any
     text in place of each wildcard (`matches_iff_weave`), and the words of a code are selected exactly
     where its symbols are (`matches_encode`).
-/
import Mathlib.Data.List.Infix
import Yunta.Lib.Sync

set_option linter.unusedVariables false

namespace Wildcard

variable {α : Type} [DecidableEq α] {star : α}

/-! ## The dialect -/

/-- The texts a pattern selects. -/
def Matches (star : α) : List α → List α → Prop
  | [], text => text = []
  | c :: pattern, text =>
    if c = star then ∃ rest, rest <:+ text ∧ Matches star pattern rest
    else ∃ rest, text = c :: rest ∧ Matches star pattern rest

@[simp] theorem matches_nil {text : List α} : Matches star [] text ↔ text = [] := Iff.rfl

theorem matches_star {pattern text : List α} :
    Matches star (star :: pattern) text ↔ ∃ rest, rest <:+ text ∧ Matches star pattern rest := by
  simp [Matches]

theorem matches_literal {c : α} (hc : c ≠ star) {pattern text : List α} :
    Matches star (c :: pattern) text ↔ ∃ rest, text = c :: rest ∧ Matches star pattern rest := by
  simp [Matches, hc]

/-- The empty text is selected by wildcards alone. -/
theorem matches_empty {pattern : List α} :
    Matches star pattern [] ↔ ∀ c ∈ pattern, c = star := by
  induction pattern with
  | nil => simp
  | cons c pattern ih =>
    by_cases hc : c = star
    · subst hc
      simp [matches_star, ih]
    · simp [matches_literal hc, hc]

/-- A leading wildcard takes what stands before a text it already selects. -/
theorem matches_star_suffix {pattern rest text : List α} (hrest : rest <:+ text)
    (h : Matches star (star :: pattern) rest) : Matches star (star :: pattern) text := by
  obtain ⟨tail, htail, hm⟩ := matches_star.mp h
  exact matches_star.mpr ⟨tail, htail.trans hrest, hm⟩

/-- Literal symbols are read off the front of the text. -/
theorem matches_segment {segment : List α} (hs : ∀ c ∈ segment, c ≠ star) {pattern text : List α} :
    Matches star (segment ++ pattern) text ↔
      ∃ rest, text = segment ++ rest ∧ Matches star pattern rest := by
  induction segment generalizing text with
  | nil => simp
  | cons c segment ih =>
    have hc : c ≠ star := hs c (by simp)
    rw [List.cons_append, matches_literal hc]
    constructor
    · rintro ⟨rest, rfl, h⟩
      obtain ⟨tail, rfl, hm⟩ := (ih fun d hd => hs d (by simp [hd])).mp h
      exact ⟨tail, rfl, hm⟩
    · rintro ⟨rest, rfl, h⟩
      exact ⟨segment ++ rest, rfl, (ih fun d hd => hs d (by simp [hd])).mpr ⟨rest, rfl, h⟩⟩

/-! ## The algorithm -/

/-- What `back` still leaves to try: the text after the last wildcard, or one more than any. -/
def reach (text : List α) : Option (List α × List α) → Nat
  | none => text.length + 1
  | some (_, left) => max left.length text.length

/-- Walks `pattern` and `text`; `back` is the pattern after the last wildcard and the text it was
    tried on last. -/
def scan (star : α) (pattern text : List α) (back : Option (List α × List α)) : Bool :=
  match text with
  | [] => pattern.all (· == star)
  | b :: rest =>
    if hstar : pattern.head? = some star then
      scan star pattern.tail (b :: rest) (some (pattern.tail, b :: rest))
    else if pattern.head? = some b then scan star pattern.tail rest back
    else
      match back with
      -- the last wildcard takes one symbol more
      | some (after, _ :: left) => scan star after left (some (after, left))
      | _ => false
termination_by (reach text back, text.length, pattern.length)
decreasing_by
  · have hp : pattern.tail.length < pattern.length := by
      cases pattern with
      | nil => simp at hstar
      | cons => simp
    cases back with
    | none => exact Prod.Lex.left _ _ (by simp [reach])
    | some back =>
      rcases Nat.lt_or_ge (rest.length + 1) back.2.length with h | h
      · refine Prod.Lex.left _ _ ?_
        show max (rest.length + 1) (rest.length + 1) < max back.2.length (rest.length + 1)
        omega
      · have hreach : reach (b :: rest) (some (pattern.tail, b :: rest)) =
            reach (b :: rest) (some back) := by
          show max (rest.length + 1) (rest.length + 1) = max back.2.length (rest.length + 1)
          omega
        rw [hreach]
        exact Prod.Lex.right _ (Prod.Lex.right _ hp)
  · rcases Nat.lt_or_ge (reach rest back) (reach (b :: rest) back) with h | h
    · exact Prod.Lex.left _ _ h
    · have hreach : reach rest back = reach (b :: rest) back := by
        cases back <;> simp only [reach, List.length_cons] at h ⊢ <;> omega
      rw [hreach]
      exact Prod.Lex.right _ (Prod.Lex.left _ _ (by simp))
  · refine Prod.Lex.left _ _ ?_
    show max left.length left.length < max (left.length + 1) (rest.length + 1)
    omega

/-- What `scan` has still to decide: the rest of the pattern on the rest of the text, or, behind a
    wildcard, all the pattern after it on all the text left to that wildcard. -/
def Left (star : α) (pattern text : List α) : Option (List α × List α) → Prop
  | none => Matches star pattern text
  | some (after, left) => Matches star (star :: after) left

/-- A pattern that starts with neither a wildcard nor the symbol at hand selects nothing here. -/
theorem not_matches_head {pattern rest : List α} {b : α} (hstar : ¬ pattern.head? = some star)
    (hb : ¬ pattern.head? = some b) : ¬ Matches star pattern (b :: rest) := by
  intro hm
  cases pattern with
  | nil => simp at hm
  | cons c pattern =>
    obtain ⟨_, heq, _⟩ := (matches_literal (by simpa using hstar)).mp hm
    have hbc : b = c := (List.cons.inj heq).1
    exact hb (by simp [hbc])

/-- The literal symbols read since the last wildcard stand in both lists. -/
def Since (star : α) (pattern text : List α) : Option (List α × List α) → Prop
  | none => True
  | some (after, left) => ∃ segment, (∀ c ∈ segment, c ≠ star) ∧
      after = segment ++ pattern ∧ left = segment ++ text

/-- Where the rest matches, everything left does. -/
theorem left_of_matches {pattern text : List α} {back : Option (List α × List α)}
    (hsince : Since star pattern text back) (h : Matches star pattern text) :
    Left star pattern text back := by
  cases back with
  | none => exact h
  | some back =>
    obtain ⟨segment, hs, hafter, hleft⟩ := hsince
    refine matches_star.mpr ⟨back.2, List.suffix_refl _, ?_⟩
    rw [hafter, hleft]
    exact (matches_segment hs).mpr ⟨text, rfl, h⟩

omit [DecidableEq α] in
/-- The rest of a text a wildcard is left with, once the literal symbols behind it are read, is no
    longer than the text at hand. -/
theorem rest_suffix {segment rest tail text : List α} (hrest : rest <:+ segment ++ text)
    (h : rest = segment ++ tail) : tail <:+ text := by
  have htail : tail <:+ segment ++ text := by
    rw [h] at hrest
    exact (List.suffix_append segment tail).trans hrest
  have hlen := hrest.length_le
  rw [h, List.length_append, List.length_append] at hlen
  exact List.suffix_of_suffix_length_le htail (List.suffix_append segment text) (by omega)

theorem scan_left (pattern text : List α) (back : Option (List α × List α)) :
    Since star pattern text back →
      (scan star pattern text back = true ↔ Left star pattern text back) := by
  fun_induction scan star pattern text back with
  | case1 pattern back =>
    intro hsince
    have hall : pattern.all (· == star) = true ↔ Matches star pattern [] := by
      simp [matches_empty]
    rw [hall]
    refine ⟨left_of_matches hsince, fun h => ?_⟩
    cases back with
    | none => exact h
    | some back =>
      obtain ⟨segment, hs, hafter, hleft⟩ := hsince
      obtain ⟨rest, hrest, hm⟩ := matches_star.mp h
      rw [hafter] at hm
      obtain ⟨tail, heq, hm⟩ := (matches_segment hs).mp hm
      rw [hleft] at hrest
      have htail := rest_suffix hrest heq
      rwa [List.suffix_nil.mp htail] at hm
  | case2 pattern back b rest hstar ih =>
    intro hsince
    obtain ⟨pattern, rfl⟩ : ∃ tail, pattern = star :: tail := by
      cases pattern with
      | nil => simp at hstar
      | cons c tail => exact ⟨tail, by simpa using hstar⟩
    rw [ih ⟨[], by simp⟩]
    refine ⟨left_of_matches hsince, fun h => ?_⟩
    cases back with
    | none => exact h
    | some back =>
      obtain ⟨segment, hs, hafter, hleft⟩ := hsince
      obtain ⟨tail, htail, hm⟩ := matches_star.mp h
      rw [hafter] at hm
      obtain ⟨tail', heq, hm⟩ := (matches_segment hs).mp hm
      rw [hleft] at htail
      exact matches_star_suffix (rest_suffix htail heq) hm
  | case3 pattern back b rest hstar hhead ih =>
    intro hsince
    obtain ⟨pattern, rfl⟩ : ∃ tail, pattern = b :: tail := by
      cases pattern with
      | nil => simp at hhead
      | cons c tail => exact ⟨tail, by simpa using hhead⟩
    have hb : b ≠ star := by simpa using hstar
    cases back with
    | none =>
      rw [ih trivial]
      show Matches star pattern rest ↔ Matches star (b :: pattern) (b :: rest)
      simp [matches_literal hb]
    | some back =>
      obtain ⟨segment, hs, hafter, hleft⟩ := hsince
      refine ih ⟨segment ++ [b], ?_, by simpa using hafter, by simpa using hleft⟩
      intro c hc
      rcases List.mem_append.mp hc with h | h
      · exact hs c h
      · rwa [List.mem_singleton.mp h]
  | case4 pattern b rest hstar hhead after x left ih =>
    intro hsince
    rw [ih ⟨[], by simp⟩]
    obtain ⟨segment, hs, hafter, hleft⟩ := hsince
    show Matches star (star :: after) left ↔ Matches star (star :: after) (x :: left)
    refine ⟨matches_star_suffix (List.suffix_cons x left), fun h => ?_⟩
    obtain ⟨tail, htail, hm⟩ := matches_star.mp h
    rcases List.suffix_cons_iff.mp htail with heq | htail'
    · -- the wildcard taking nothing more is what just failed
      exfalso
      rw [hafter, heq, hleft] at hm
      obtain ⟨tail', heq', hm⟩ := (matches_segment hs).mp hm
      rw [← List.append_cancel_left heq'] at hm
      exact not_matches_head hstar hhead hm
    · exact matches_star.mpr ⟨tail, htail', hm⟩
  | case5 pattern back b rest hstar hhead hback =>
    intro hsince
    cases back with
    | none =>
      simpa [Left] using not_matches_head hstar hhead
    | some back =>
      obtain ⟨segment, hs, hafter, hleft⟩ := hsince
      obtain ⟨after, left⟩ := back
      cases left with
      | nil => simp at hleft
      | cons x left => exact absurd rfl (hback after x left)

/-- **The scan decides the dialect.** -/
theorem scan_iff (star : α) (pattern text : List α) :
    scan star pattern text none = true ↔ Matches star pattern text :=
  scan_left pattern text none trivial

/-! ## What it means -/

/-- Pieces in order, with a gap after each but the last. -/
def weave : List (List α) → List (List α) → List α
  | [], _ => []
  | piece :: _, [] => piece
  | piece :: pieces, gap :: gaps => piece ++ gap ++ weave pieces gaps

omit [DecidableEq α] in
theorem weave_modifyHead (c : α) {pieces : List (List α)} (gaps : List (List α)) (h : pieces ≠ []) :
    weave (pieces.modifyHead (c :: ·)) gaps = c :: weave pieces gaps := by
  obtain ⟨piece, pieces, rfl⟩ := List.exists_cons_of_ne_nil h
  cases gaps with
  | nil => rfl
  | cons gap gaps => rfl

/-- **The pattern's literal pieces in order**, with any text for each wildcard. -/
theorem matches_iff_weave {pattern text : List α} :
    Matches star pattern text ↔
      ∃ gaps : List (List α), gaps.length + 1 = (pattern.splitOn star).length ∧
        text = weave (pattern.splitOn star) gaps := by
  induction pattern generalizing text with
  | nil =>
    rw [matches_nil]
    constructor
    · rintro rfl
      exact ⟨[], rfl, rfl⟩
    · rintro ⟨gaps, hlength, htext⟩
      have hgaps : gaps = [] := List.length_eq_zero_iff.mp (by simpa using hlength)
      rw [htext, hgaps]
      rfl
  | cons c pattern ih =>
    have hsplit : (c :: pattern).splitOn star = if c = star then [] :: pattern.splitOn star
        else (pattern.splitOn star).modifyHead (c :: ·) := by
      simp [List.splitOn_cons_eq_if_modifyHead]
    rw [hsplit]
    by_cases hc : c = star
    · subst hc
      rw [if_pos rfl, matches_star]
      constructor
      · rintro ⟨rest, ⟨gap, rfl⟩, hm⟩
        obtain ⟨gaps, hlength, rfl⟩ := ih.mp hm
        exact ⟨gap :: gaps, by simp [hlength], rfl⟩
      · rintro ⟨gaps, hlength, htext⟩
        cases gaps with
        | nil =>
          rw [List.length_nil, List.length_cons] at hlength
          have hnone : pattern.splitOn c = [] := List.length_eq_zero_iff.mp (by omega)
          exact absurd hnone (List.splitOn_ne_nil c pattern)
        | cons gap gaps =>
          rw [htext]
          exact ⟨_, List.suffix_append gap _, ih.mpr ⟨gaps, by simpa using hlength, rfl⟩⟩
    · rw [if_neg hc, matches_literal hc]
      have hweave := fun gaps : List (List α) =>
        weave_modifyHead c gaps (List.splitOn_ne_nil star pattern)
      simp only [hweave, List.length_modifyHead]
      constructor
      · rintro ⟨rest, rfl, hm⟩
        obtain ⟨gaps, hlength, rfl⟩ := ih.mp hm
        exact ⟨gaps, hlength, rfl⟩
      · rintro ⟨gaps, hlength, rfl⟩
        exact ⟨_, rfl, ih.mpr ⟨gaps, hlength, rfl⟩⟩

section Encoded
variable {β : Type} [DecidableEq β] {code : Sync.Code α β} {mark : β}

/-- **The words of a text are selected exactly where its symbols are**, where the wildcard's word is
    one mark. -/
theorem matches_encode (hstar : code.word star = [mark]) {pattern text : List α} :
    Matches mark (code.encode pattern) (code.encode text) ↔ Matches star pattern text := by
  have hliteral : ∀ c, c ≠ star → ∀ b ∈ code.word c, b ≠ mark :=
    fun c hc => Sync.Code.mark_not_mem hstar hc
  induction pattern generalizing text with
  | nil => simp
  | cons c pattern ih =>
    by_cases hc : c = star
    · subst hc
      rw [code.encode_cons, hstar, List.singleton_append, matches_star, matches_star]
      constructor
      · rintro ⟨rest, hrest, hm⟩
        cases hpattern : pattern with
        | nil => exact ⟨[], List.nil_suffix, rfl⟩
        | cons d later =>
          by_cases hd : d = c
          · -- the next wildcard takes what this one left
            subst hd
            refine ⟨text, List.suffix_refl _, ?_⟩
            rw [← hpattern]
            refine ih.mp ?_
            rw [hpattern, code.encode_cons, hstar, List.singleton_append] at hm ⊢
            exact matches_star_suffix hrest hm
          · -- a literal symbol opens with a mark, so the text was cut between two words
            have hm' := hm
            rw [hpattern, code.encode_cons, matches_segment (hliteral d hd)] at hm'
            obtain ⟨tail, rfl, -⟩ := hm'
            obtain ⟨b, word, heq, hb, -⟩ := code.opening d
            rw [heq, List.cons_append] at hrest
            obtain ⟨cut, hcut, hwords⟩ := Sync.Code.suffix_encode hb hrest
            refine ⟨cut, hcut, ?_⟩
            rw [← hpattern]
            refine ih.mp ?_
            rw [← hwords, ← List.cons_append, ← heq]
            exact hm
      · rintro ⟨rest, ⟨before, rfl⟩, hm⟩
        refine ⟨code.encode rest, ?_, ih.mpr hm⟩
        rw [code.encode_append]
        exact List.suffix_append _ _
    · rw [code.encode_cons, matches_segment (hliteral c hc), matches_literal hc]
      constructor
      · rintro ⟨rest, htext, hm⟩
        have hfront : code.encode [c] ++ rest = code.encode text := by
          rw [htext, code.encode_cons, code.encode_nil, List.append_nil]
        obtain ⟨tail, rfl, rfl⟩ := Sync.Code.encode_prefix hfront
        exact ⟨tail, rfl, ih.mp hm⟩
      · rintro ⟨rest, rfl, hm⟩
        exact ⟨code.encode rest, rfl, ih.mpr hm⟩

end Encoded

end Wildcard
