/-
  Text as Rust's `str` cuts it and reads numbers from it.

  * **Cutting** — `splitOnce` cuts at the first occurrence of a mark, `rsplitOnce` at the last
    character of a kind; each has one spec lemma for where the mark stands.
  * **Numbers** — `fromStrRadix` reads an unsigned number.  The digits a number is written with are
    read back as it (`fromStrRadix_toDigits`).
-/
import Yunta.Lib.Replace
import Yunta.Lib.Text

set_option linter.unusedVariables false

namespace Str

/-! ## Cutting -/

/-- `str::split_once`. -/
def splitOnce (mark text : List Char) : Option (List Char × List Char) :=
  (Replace.find mark text).map fun at_ => (text.take at_, text.drop (at_ + mark.length))

/-- `str::rsplit_once` of a character. -/
def rsplitOnce (c : Char) (text : List Char) : Option (List Char × List Char) :=
  if c ∈ text then some ((text.rdropWhile (· ≠ c)).dropLast, text.rtakeWhile (· ≠ c)) else none

theorem splitOnce_of_found {mark text before rest : List Char}
    (h : Replace.Found mark text before rest) : splitOnce mark text = some (before, rest) := by
  unfold splitOnce
  cases hfind : Replace.find mark text with
  | none =>
    refine absurd ?_ (Replace.find_eq_none.mp hfind)
    rw [h.cut]
    exact ⟨before, rest, List.append_assoc ..⟩
  | some at_ =>
    obtain ⟨hbefore, hrest⟩ := (Replace.found_of_find hfind).1.unique h
    rw [Option.map_some, hbefore, hrest]

theorem found_of_splitOnce {mark text before rest : List Char}
    (h : splitOnce mark text = some (before, rest)) : Replace.Found mark text before rest := by
  unfold splitOnce at h
  obtain ⟨at_, hfind, heq⟩ := Option.map_eq_some_iff.mp h
  cases heq
  exact (Replace.found_of_find hfind).1

/-- A mark whose first character stands nowhere before it. -/
theorem splitOnce_mark {c : Char} {mark front : List Char} (h : c ∉ front) (rest : List Char) :
    splitOnce (c :: mark) (front ++ (c :: mark ++ rest)) = some (front, rest) := by
  refine splitOnce_of_found ⟨rfl, fun earlier later heq => ?_⟩
  rcases List.append_eq_append_iff.mp heq with ⟨between, rfl, -⟩ | ⟨between, rfl, hmark⟩
  · rw [List.length_append]
    omega
  · cases between with
    | nil => rw [List.append_nil]
    | cons d between =>
      have hd : c = d := (List.cons.inj hmark).1
      exact absurd (hd ▸ List.mem_append_right earlier List.mem_cons_self) h

/-- A text is cut at the last of its marks. -/
theorem rsplitOnce_mark {c : Char} {back : List Char} (h : c ∉ back) (front : List Char) :
    rsplitOnce c (front ++ c :: back) = some (front, back) := by
  have hall : ∀ d ∈ back, decide (d ≠ c) = true := by
    intro d hd
    rw [decide_eq_true_eq]
    rintro rfl
    exact h hd
  have hcut : front ++ c :: back = (front ++ [c]) ++ back := by simp
  have hdrop : (front ++ c :: back).rdropWhile (· ≠ c) = front ++ [c] := by
    rw [hcut, Text.rdropWhile_append_all hall, List.rdropWhile_concat, if_neg (by simp)]
  have htake : (front ++ c :: back).rtakeWhile (· ≠ c) = back := by
    have hwhole : (front ++ c :: back).rdropWhile (· ≠ c) ++ (front ++ c :: back).rtakeWhile (· ≠ c) =
        front ++ c :: back := List.rdropWhile_append_rtakeWhile
    rw [hdrop] at hwhole
    exact List.append_cancel_left (hwhole.trans hcut)
  unfold rsplitOnce
  rw [if_pos (List.mem_append_right _ List.mem_cons_self), hdrop, htake, List.dropLast_concat]

theorem rsplitOnce_of_notMem {c : Char} {text : List Char} (h : c ∉ text) :
    rsplitOnce c text = none := if_neg h

/-- A text that holds a mark is cut at its last one. -/
theorem exists_rsplitOnce {c : Char} {text : List Char} (h : c ∈ text) :
    ∃ front back, text = front ++ c :: back ∧ c ∉ back := by
  obtain ⟨back, front, hreverse, hnot⟩ := List.eq_append_cons_of_mem (List.mem_reverse.mpr h)
  refine ⟨front.reverse, back.reverse, ?_, fun hmem => hnot (List.mem_reverse.mp hmem)⟩
  have heq := congrArg List.reverse hreverse
  rwa [List.reverse_reverse, List.reverse_append, List.reverse_cons, List.append_assoc] at heq

/-! ## Numbers -/

/-- `char::to_digit`. -/
def digitOf (radix : Nat) (c : Char) : Option Nat :=
  let n := c.toNat
  let digit :=
    if 48 ≤ n ∧ n ≤ 57 then n - 48
    else if 97 ≤ n ∧ n ≤ 122 then n - 87
    else if 65 ≤ n ∧ n ≤ 90 then n - 55
    else radix
  if digit < radix then some digit else none

/-- The number the digits spell, when each is one. -/
def number (radix : Nat) (digits : List Char) : Option Nat :=
  digits.foldlM (fun n c => (digitOf radix c).map (radix * n + ·)) 0

/-- `from_str_radix` of an unsigned type that holds the numbers below `limit`. -/
def fromStrRadix (radix limit : Nat) (text : List Char) : Option Nat :=
  match text with
  | [] | ['+'] => none
  | '+' :: digits => (number radix digits).filter (· < limit)
  | digits => (number radix digits).filter (· < limit)

/-- A digit is no whitespace and no sign. -/
theorem digit_of_digitOf {radix : Nat} {c : Char} (h : (digitOf radix c).isSome = true) :
    Text.isWhitespace c = false ∧ c ≠ '+' := by
  have hrange : (48 ≤ c.toNat ∧ c.toNat ≤ 57) ∨ (97 ≤ c.toNat ∧ c.toNat ≤ 122) ∨
      (65 ≤ c.toNat ∧ c.toNat ≤ 90) := by
    by_contra hout
    unfold digitOf at h
    dsimp only at h
    rw [if_neg (fun hd => hout (Or.inl hd)), if_neg (fun hd => hout (Or.inr (Or.inl hd))),
      if_neg (fun hd => hout (Or.inr (Or.inr hd))), if_neg (Nat.lt_irrefl radix)] at h
    cases h
  constructor
  · simp only [Text.isWhitespace, Bool.or_eq_false_iff, Bool.and_eq_false_iff, decide_eq_false_iff_not,
      List.contains_eq_mem, List.mem_cons, List.not_mem_nil, or_false]
    omega
  · rintro rfl
    revert hrange
    decide

theorem isSome_digitOf {radix : Nat} {digits : List Char} {n : Nat}
    (h : number radix digits = some n) : ∀ c ∈ digits, (digitOf radix c).isSome = true := by
  unfold number at h
  generalize 0 = start at h
  induction digits generalizing start with
  | nil => exact fun c hc => by cases hc
  | cons d digits ih =>
    rw [List.foldlM_cons] at h
    cases hd : digitOf radix d with
    | none =>
      rw [hd] at h
      cases h
    | some digit =>
      rw [hd] at h
      intro c hc
      rcases List.mem_cons.mp hc with rfl | hc
      · rw [hd]
        rfl
      · exact ih _ h c hc

theorem digitOf_digitChar {radix d : Nat} (hradix : radix ≤ 16) (h : d < radix) :
    digitOf radix d.digitChar = some d := by
  have hall : ∀ radix ≤ 16, ∀ d < radix, digitOf radix d.digitChar = some d := by decide
  exact hall radix hradix d h

/-- A number's digits spell it. -/
theorem number_toDigits {radix : Nat} (hmany : 2 ≤ radix) (hradix : radix ≤ 16) (n : Nat) :
    number radix (Nat.toDigits radix n) = some n := by
  induction n using Nat.strongRecOn with
  | ind n ih =>
    by_cases h : n < radix
    · rw [Nat.toDigits_of_lt_base h, number, List.foldlM_cons, digitOf_digitChar hradix h]
      show some (radix * 0 + n) = some n
      congr 1
      omega
    · have hmod : digitOf radix (n % radix).digitChar = some (n % radix) :=
        digitOf_digitChar hradix (Nat.mod_lt n (by omega))
      have hdiv := ih (n / radix) (Nat.div_lt_self (by omega) (by omega))
      rw [number] at hdiv
      rw [Nat.toDigits_of_base_le (by omega) (by omega), number, List.foldlM_append, hdiv]
      show ((digitOf radix (n % radix).digitChar).map (radix * (n / radix) + ·)).bind some = some n
      rw [hmod]
      exact congrArg some (Nat.div_add_mod n radix)

/-- Digits that spell a number the type holds are read as it. -/
theorem fromStrRadix_of_number {radix limit : Nat} {digits : List Char} {n : Nat}
    (hne : digits ≠ []) (h : number radix digits = some n) (hlimit : n < limit) :
    fromStrRadix radix limit digits = some n := by
  obtain ⟨c, rest, rfl⟩ := List.exists_cons_of_ne_nil hne
  have hplus : c ≠ '+' := (digit_of_digitOf (isSome_digitOf h c List.mem_cons_self)).2
  unfold fromStrRadix
  split
  · next heq => cases heq
  · next heq => exact absurd (List.cons.inj heq).1 hplus
  · next digits heq => exact absurd (List.cons.inj heq).1 hplus
  · rw [h, Option.filter_some, if_pos (decide_eq_true hlimit)]

/-- **A number written is read back.** -/
theorem fromStrRadix_toDigits {radix limit : Nat} (hmany : 2 ≤ radix) (hradix : radix ≤ 16) {n : Nat}
    (h : n < limit) : fromStrRadix radix limit (Nat.toDigits radix n) = some n :=
  fromStrRadix_of_number Nat.toDigits_ne_nil (number_toDigits hmany hradix n) h

/-- A text without whitespace has nothing to trim. -/
theorem trim_of_none {text : List Char} (h : ∀ c ∈ text, Text.isWhitespace c = false) :
    (Text.trim (.ofList text)).toList = text := by
  unfold Text.trim
  rw [String.toList_ofList, String.toList_ofList]
  have hfront : text.dropWhile Text.isWhitespace = text := by
    rw [List.dropWhile_eq_self_iff]
    intro hpos
    rw [h _ (List.getElem_mem hpos)]
    exact Bool.false_ne_true
  rw [hfront, List.rdropWhile_eq_self_iff]
  intro hne
  rw [h _ (List.getLast_mem hne)]
  exact Bool.false_ne_true

end Str
