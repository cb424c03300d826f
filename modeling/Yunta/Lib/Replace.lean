/-
  Every occurrence of a needle in a text, replaced.

  1. **The search** — `find` answers where the needle stands first.  `Found` says it of the text cut
     in three: nothing before the first occurrence starts another.

  2. **The replacement** — `replaceAll` replaces the first occurrence and goes on behind it.
     `replaceAll_of_found` and `replaceAll_of_none` are all it does.

  3. **Through a code** — replacing the words of a text replaces its symbols
     (`replaceAll_encode`).

  4. **What is left** — a word `meets` the marker where an occurrence of it can share a symbol with
     one of the marker.  A word that does not is gone once it is replaced (`not_infix_replaced`), and
     replacing another word brings it back nowhere (`not_infix_replaceAll`).
-/
import Yunta.Lib.Sync

set_option linter.unusedVariables false

namespace Replace

variable {α : Type*} [DecidableEq α]

/-! ## The search -/

/-- Where `needle` stands first in a text. -/
def find (needle : List α) : List α → Option Nat
  | [] => if needle = [] then some 0 else none
  | c :: rest =>
    if needle.isPrefixOf (c :: rest) then some 0 else (find needle rest).map (· + 1)

omit [DecidableEq α] in
/-- `needle` stands first behind `before`, and `rest` is behind it. -/
structure Found (needle text before rest : List α) : Prop where
  cut : text = before ++ (needle ++ rest)
  first : ∀ earlier later, text = earlier ++ (needle ++ later) → before.length ≤ earlier.length

theorem found_of_find {needle text : List α} {at_ : Nat} (h : find needle text = some at_) :
    Found needle text (text.take at_) (text.drop (at_ + needle.length)) ∧ at_ ≤ text.length := by
  induction text generalizing at_ with
  | nil =>
    rw [find] at h
    split at h
    · next hnil =>
      obtain rfl := Option.some.inj h
      subst hnil
      exact ⟨⟨rfl, fun _ _ _ => Nat.zero_le _⟩, Nat.le_refl _⟩
    · cases h
  | cons c text ih =>
    rw [find] at h
    split at h
    · next hprefix =>
      obtain rfl := Option.some.inj h
      obtain ⟨rest, hrest⟩ := List.isPrefixOf_iff_prefix.mp hprefix
      refine ⟨⟨?_, fun _ _ _ => Nat.zero_le _⟩, Nat.zero_le _⟩
      rw [← hrest]
      simp
    · next hprefix =>
      obtain ⟨below, hbelow, rfl⟩ := Option.map_eq_some_iff.mp h
      obtain ⟨⟨hcut, hfirst⟩, hle⟩ := ih hbelow
      have hdrop : (c :: text).drop (below + 1 + needle.length) =
          text.drop (below + needle.length) := by
        rw [show below + 1 + needle.length = below + needle.length + 1 by omega, List.drop_succ_cons]
      refine ⟨⟨?_, fun earlier later heq => ?_⟩, by simpa using hle⟩
      · rw [hdrop, List.take_succ_cons, List.cons_append, ← hcut]
      · cases earlier with
        | nil =>
          exact absurd (List.isPrefixOf_iff_prefix.mpr ⟨later, heq.symm⟩) hprefix
        | cons d earlier =>
          have hle := hfirst earlier later (List.cons.inj heq).2
          simp only [List.take_succ_cons, List.length_cons]
          omega

theorem find_eq_none {needle text : List α} : find needle text = none ↔ ¬ needle <:+: text := by
  induction text with
  | nil => simp [find, List.infix_nil]
  | cons c text ih =>
    rw [find, List.infix_cons_iff]
    by_cases hprefix : needle.isPrefixOf (c :: text) = true
    · rw [if_pos hprefix]
      simp [List.isPrefixOf_iff_prefix.mp hprefix]
    · rw [if_neg hprefix, Option.map_eq_none_iff, ih]
      have hnot : ¬ needle <+: c :: text := fun h => hprefix (List.isPrefixOf_iff_prefix.mpr h)
      simp [hnot]

theorem exists_found {needle text : List α} (h : needle <:+: text) :
    ∃ before rest, Found needle text before rest := by
  cases hfind : find needle text with
  | none => exact absurd h (find_eq_none.mp hfind)
  | some at_ => exact ⟨_, _, (found_of_find hfind).1⟩

omit [DecidableEq α] in
theorem Found.unique {needle text before rest before' rest' : List α}
    (h : Found needle text before rest) (h' : Found needle text before' rest') :
    before = before' ∧ rest = rest' := by
  have hle := h.first before' rest' h'.cut
  have hge := h'.first before rest h.cut
  have hcut : before ++ (needle ++ rest) = before' ++ (needle ++ rest') := h.cut.symm.trans h'.cut
  obtain ⟨rfl, hrest⟩ := List.append_inj hcut (by omega)
  exact ⟨rfl, List.append_cancel_left hrest⟩

omit [DecidableEq α] in
theorem Found.shorter {needle text before rest : List α} (h : Found needle text before rest)
    (hneedle : needle ≠ []) : rest.length < text.length := by
  have hpos : 0 < needle.length := List.length_pos_iff.mpr hneedle
  rw [h.cut, List.length_append, List.length_append]
  omega

omit [DecidableEq α] in
/-- A mark written twice stands first behind a stretch where the stretch and one mark hold no other. -/
theorem found_twice {c : α} {before rest : List α} :
    Found [c, c] (before ++ ([c, c] ++ rest)) before rest ↔ ¬[c, c] <:+: before ++ [c] := by
  constructor
  · rintro h ⟨earlier, later, heq⟩
    have hcut : before ++ ([c, c] ++ rest) = earlier ++ ([c, c] ++ (later ++ c :: rest)) := by
      calc before ++ ([c, c] ++ rest) = (before ++ [c]) ++ c :: rest := by simp
        _ = (earlier ++ [c, c] ++ later) ++ c :: rest := by rw [heq]
        _ = earlier ++ ([c, c] ++ (later ++ c :: rest)) := by simp
    have hle := h.first earlier _ hcut
    have hlen := congrArg List.length heq
    simp only [List.length_append, List.length_cons, List.length_nil] at hlen
    omega
  · intro h
    refine ⟨rfl, fun earlier later heq => ?_⟩
    by_contra hlt
    refine h ?_
    have htake : ((earlier ++ [c, c]) ++ later).take (before.length + 1) = before ++ [c] := by
      rw [List.append_assoc, ← heq, List.take_append]
      simp
    have hwhole : (earlier ++ [c, c]).take (before.length + 1) = earlier ++ [c, c] :=
      List.take_of_length_le (by rw [List.length_append]; simp only [List.length_cons, List.length_nil]; omega)
    rw [← htake, List.take_append, hwhole]
    exact ⟨earlier, _, rfl⟩

omit [DecidableEq α] in
/-- A stretch that neither holds a mark twice nor ends with one makes none with what follows it. -/
theorem not_twice_append {c : α} {front text : List α} (hfront : ¬[c, c] <:+: front ++ [c])
    (htext : ¬[c, c] <:+: text) : ¬[c, c] <:+: front ++ text := by
  induction front with
  | nil => exact htext
  | cons a front ih =>
    rw [List.cons_append, List.infix_cons_iff, not_or] at hfront ⊢
    refine ⟨fun hstart => hfront.1 ?_, ih hfront.2⟩
    rw [List.cons_prefix_cons] at hstart ⊢
    refine ⟨hstart.1, ?_⟩
    cases front with
    | nil => exact List.prefix_refl _
    | cons b front =>
      rw [List.cons_append, List.cons_prefix_cons] at hstart ⊢
      exact ⟨hstart.2.1, List.nil_prefix⟩

/-! ## The replacement -/

/-- Every occurrence of `needle` in `text` replaced by `marker`.  An empty needle is none. -/
def replaceAll (needle marker text : List α) : List α :=
  if needle = [] then text
  else
    match hfind : find needle text with
    | none => text
    | some at_ => text.take at_ ++ (marker ++ replaceAll needle marker (text.drop (at_ + needle.length)))
termination_by text.length
decreasing_by
  rename_i hneedle
  exact (found_of_find hfind).1.shorter hneedle

variable {needle marker text : List α}

theorem replaceAll_of_none (h : ¬ needle <:+: text) : replaceAll needle marker text = text := by
  have hneedle : needle ≠ [] := by
    rintro rfl
    exact h (List.nil_infix)
  rw [replaceAll, if_neg hneedle]
  split
  · rfl
  · next at_ hfind => rw [find_eq_none.mpr h] at hfind; cases hfind

theorem replaceAll_of_found (hneedle : needle ≠ []) {before rest : List α}
    (h : Found needle text before rest) :
    replaceAll needle marker text = before ++ (marker ++ replaceAll needle marker rest) := by
  rw [replaceAll, if_neg hneedle]
  split
  · next hfind => exact absurd ⟨before, rest, by rw [h.cut]; simp⟩ (find_eq_none.mp hfind)
  · next at_ hfind =>
    obtain ⟨rfl, rfl⟩ := (found_of_find hfind).1.unique h
    rfl

/-- **What holds of a text without the needle, and of one cut at its first occurrence once it holds of
    what is behind it**, holds of every text. -/
theorem found_induction (hneedle : needle ≠ []) {P : List α → Prop}
    (none : ∀ text, ¬ needle <:+: text → P text)
    (found : ∀ text before rest, Found needle text before rest → P rest → P text) (text : List α) :
    P text := by
  induction hn : text.length using Nat.strong_induction_on generalizing text with
  | _ n ih =>
    by_cases hin : needle <:+: text
    · obtain ⟨before, rest, hfound⟩ := exists_found hin
      have hshorter := hfound.shorter hneedle
      exact found text before rest hfound (ih rest.length (by omega) rest rfl)
    · exact none text hin

/-! ## Through a code -/

section Encoded
variable {β : Type*} [DecidableEq β] {code : Sync.Code α β}

omit [DecidableEq α] [DecidableEq β] in
/-- The words of a text hold those of a needle exactly where it holds the needle. -/
theorem encode_infix_iff (hneedle : needle ≠ []) :
    code.encode needle <:+: code.encode text ↔ needle <:+: text := by
  constructor
  · rintro ⟨before, rest, h⟩
    rw [List.append_assoc] at h
    obtain ⟨front, tail, rfl, -, -⟩ := Sync.Code.encode_infix hneedle h
    exact ⟨front, tail, by simp⟩
  · rintro ⟨before, rest, rfl⟩
    exact ⟨code.encode before, code.encode rest, by simp⟩

omit [DecidableEq α] [DecidableEq β] in
theorem Found.encode (hneedle : needle ≠ []) {before rest : List α}
    (h : Found needle text before rest) :
    Found (code.encode needle) (code.encode text) (code.encode before) (code.encode rest) := by
  refine ⟨by rw [h.cut]; simp, fun earlier later heq => ?_⟩
  obtain ⟨front, tail, hwhole, rfl, rfl⟩ := Sync.Code.encode_infix hneedle heq.symm
  have hle := h.first front tail hwhole
  have hcut : before ++ (needle ++ rest) = front ++ (needle ++ tail) := h.cut.symm.trans hwhole
  have hfront : front <+: before ++ (needle ++ rest) := by
    rw [hcut]
    exact List.prefix_append _ _
  obtain ⟨more, rfl⟩ : before <+: front :=
    List.prefix_of_prefix_length_le (List.prefix_append _ _) hfront hle
  rw [code.encode_append, List.length_append]
  omega

/-- **Replacing the words of a text replaces its symbols.** -/
theorem replaceAll_encode (hneedle : needle ≠ []) (marker text : List α) :
    replaceAll (code.encode needle) (code.encode marker) (code.encode text) =
      code.encode (replaceAll needle marker text) := by
  have hwords : code.encode needle ≠ [] := fun h => hneedle (Sync.Code.encode_eq_nil.mp h)
  induction text using found_induction hneedle with
  | none text hin =>
    rw [replaceAll_of_none hin, replaceAll_of_none fun h => hin ((encode_infix_iff hneedle).mp h)]
  | found text before rest hfound ih =>
    rw [replaceAll_of_found hneedle hfound, replaceAll_of_found hwords (hfound.encode hneedle), ih]
    simp

end Encoded

/-! ## What is left -/

/-- Two words agree from their first symbol on, as far as both go. -/
def agree (a b : List α) : Bool := a.isPrefixOf b || b.isPrefixOf a

/-- Whether an occurrence of `word` can share a symbol with one of `marker`: the word starts inside
    the marker, or the marker inside the word, and from there on they agree. -/
def meets (marker word : List α) : Bool :=
  (List.range marker.length).any (fun k => agree (marker.drop k) word) ||
    (List.range word.length).any fun k => agree (word.drop k) marker

/-- Words that start at one place of a text agree. -/
theorem agree_of_append {a b rest other : List α} (h : a ++ rest = b ++ other) : agree a b = true := by
  rw [agree, Bool.or_eq_true, List.isPrefixOf_iff_prefix, List.isPrefixOf_iff_prefix]
  exact List.prefix_or_prefix_of_prefix (List.prefix_append a rest) (h ▸ List.prefix_append b other)

/-- **An occurrence that shares a symbol with the marker** shows the two meet. -/
theorem meets_of_overlap {marker word before rest earlier later : List α}
    (h : before ++ (marker ++ rest) = earlier ++ (word ++ later))
    (hstart : earlier.length < before.length + marker.length)
    (hend : before.length < earlier.length + word.length) : meets marker word = true := by
  rw [meets, Bool.or_eq_true, List.any_eq_true, List.any_eq_true]
  rcases List.append_eq_append_iff.mp h with ⟨inside, rfl, hcut⟩ | ⟨inside, rfl, hcut⟩
  · -- the word starts inside the marker
    rw [List.length_append] at hstart
    refine .inl ⟨inside.length, List.mem_range.mpr (by omega), ?_⟩
    have hdrop := congrArg (List.drop inside.length) hcut
    rw [List.drop_left, List.drop_append_of_le_length (by omega)] at hdrop
    exact agree_of_append hdrop
  · rw [List.length_append] at hend
    refine .inr ⟨inside.length, List.mem_range.mpr (by omega), ?_⟩
    have hdrop := congrArg (List.drop inside.length) hcut
    rw [List.drop_left, List.drop_append_of_le_length (by omega)] at hdrop
    exact agree_of_append hdrop

/-- **A word that does not meet the marker** stands in front of it or behind it. -/
theorem infix_of_not_meets {word before rest : List α} (hmeets : meets marker word = false)
    (h : word <:+: before ++ (marker ++ rest)) : word <:+: before ∨ word <:+: rest := by
  obtain ⟨earlier, later, hcut⟩ := h
  rw [List.append_assoc] at hcut
  by_cases hstart : earlier.length < before.length + marker.length
  · by_cases hend : before.length < earlier.length + word.length
    · rw [meets_of_overlap hcut.symm hstart hend] at hmeets
      cases hmeets
    · left
      have hfront : earlier ++ word <+: before ++ (marker ++ rest) :=
        ⟨later, by rw [← hcut, List.append_assoc]⟩
      have hstart : earlier ++ word <+: before :=
        List.prefix_of_prefix_length_le hfront (List.prefix_append _ _)
          (by rw [List.length_append]; omega)
      exact (List.suffix_append earlier word).isInfix.trans hstart.isInfix
  · right
    have hback : word ++ later <:+ before ++ (marker ++ rest) := ⟨earlier, hcut⟩
    have hrest : rest <:+ before ++ (marker ++ rest) :=
      (List.suffix_append marker rest).trans (List.suffix_append before _)
    have hsuffix : word ++ later <:+ rest := by
      refine List.suffix_of_suffix_length_le hback hrest ?_
      have hlength := congrArg List.length hcut
      simp only [List.length_append] at hlength ⊢
      omega
    exact (List.prefix_append word later).isInfix.trans hsuffix.isInfix

/-- **A word that does not meet the marker is gone** once it is replaced. -/
theorem not_infix_replaced (hneedle : needle ≠ []) (hmeets : meets marker needle = false)
    (text : List α) : ¬ needle <:+: replaceAll needle marker text := by
  induction text using found_induction hneedle with
  | none text hin => rwa [replaceAll_of_none hin]
  | found text before rest hfound ih =>
    rw [replaceAll_of_found hneedle hfound]
    intro h
    rcases infix_of_not_meets hmeets h with ⟨earlier, later, hbefore⟩ | hrest
    · -- what is in front of the first occurrence holds none
      have hpos : 0 < needle.length := List.length_pos_iff.mpr hneedle
      have hle := hfound.first earlier (later ++ (needle ++ rest)) (by
        rw [hfound.cut, ← hbefore]
        simp)
      rw [← hbefore] at hle
      simp only [List.length_append] at hle
      omega
    · exact ih hrest

/-- **Replacing another word** brings back none that does not meet the marker. -/
theorem not_infix_replaceAll {word : List α} (hmeets : meets marker word = false) {text : List α}
    (h : ¬ word <:+: text) : ¬ word <:+: replaceAll needle marker text := by
  by_cases hneedle : needle = []
  · rwa [replaceAll, if_pos hneedle]
  · induction text using found_induction hneedle with
    | none text hin => rwa [replaceAll_of_none hin]
    | found text before rest hfound ih =>
      have hbefore : before <:+: text := by
        rw [hfound.cut]
        exact (List.prefix_append _ _).isInfix
      have hrest : rest <:+: text := by
        rw [hfound.cut]
        exact ((List.suffix_append needle rest).trans (List.suffix_append before _)).isInfix
      rw [replaceAll_of_found hneedle hfound]
      intro hin
      rcases infix_of_not_meets hmeets hin with hin | hin
      · exact h (hin.trans hbefore)
      · exact ih (fun hrest' => h (hrest'.trans hrest)) hin

/-- A text that holds the needle holds the marker once it is replaced. -/
theorem marker_infix_replaceAll (hneedle : needle ≠ []) {text : List α} (h : needle <:+: text) :
    marker <:+: replaceAll needle marker text := by
  obtain ⟨before, rest, hfound⟩ := exists_found h
  rw [replaceAll_of_found hneedle hfound]
  exact ⟨before, replaceAll needle marker rest, by simp⟩

end Replace
