/-
  Text as Rust's standard library reads it.

  * **Whitespace** — `str::trim` takes away every character of the Unicode property `White_Space` at
    both ends of a text.  What is left has none to take (`trim_trim`).
  * **Paths** — the names of a path, as `Path::components` gives them.
-/
import Mathlib.Data.List.DropRight
import Mathlib.Data.List.TakeWhile

set_option linter.unusedVariables false

namespace Text

/-! ## Trimming -/

/-- `char::is_whitespace`: the Unicode property `White_Space`. -/
def isWhitespace (c : Char) : Bool :=
  (9 ≤ c.toNat && c.toNat ≤ 13) || (0x2000 ≤ c.toNat && c.toNat ≤ 0x200A) ||
    [0x20, 0x85, 0xA0, 0x1680, 0x2028, 0x2029, 0x202F, 0x205F, 0x3000].contains c.toNat

/-- `str::trim`. -/
def trim (s : String) : String :=
  .ofList ((s.toList.dropWhile isWhitespace).rdropWhile isWhitespace)

/-- `str::split_whitespace`. -/
def splitWhitespace (text : List Char) : List (List Char) :=
  (text.splitOnP isWhitespace).filter (· ≠ [])

/-- What is left of a list with nothing to drop in front still has nothing to drop there. -/
theorem dropWhile_rdropWhile {α : Type} (p : α → Bool) (l : List α) :
    ((l.dropWhile p).rdropWhile p).dropWhile p = (l.dropWhile p).rdropWhile p := by
  obtain ⟨back, hback⟩ := List.rdropWhile_prefix p (l.dropWhile p)
  cases hfront : (l.dropWhile p).rdropWhile p with
  | nil => rfl
  | cons a front =>
    rw [hfront] at hback
    have hhead : (l.dropWhile p).dropWhile p = l.dropWhile p := List.dropWhile_idempotent p l
    have ha : p a = false := by
      rw [← hback, List.cons_append, List.dropWhile_cons] at hhead
      by_contra hp
      rw [if_pos (by simpa using hp)] at hhead
      have hlen := congrArg List.length hhead
      have hle := (List.dropWhile_suffix (l := front ++ back) p).length_le
      rw [List.length_cons] at hlen
      omega
    rw [List.dropWhile_cons, if_neg (by rw [ha]; exact Bool.false_ne_true)]

/-- **Trimming twice is trimming once.** -/
@[simp] theorem trim_trim (s : String) : trim (trim s) = trim s := by
  simp only [trim, String.toList_ofList]
  rw [dropWhile_rdropWhile, List.rdropWhile_idempotent]

theorem rdropWhile_append_all {α : Type} {p : α → Bool} {l back : List α}
    (h : ∀ x ∈ back, p x = true) : (l ++ back).rdropWhile p = l.rdropWhile p := by
  rw [List.rdropWhile, List.rdropWhile, List.reverse_append, List.dropWhile_append_of_pos]
  exact fun x hx => h x (List.mem_reverse.mp hx)

theorem rdropWhile_append_of_ne_nil {α : Type} {p : α → Bool} {l back : List α}
    (h : back.rdropWhile p ≠ []) : (l ++ back).rdropWhile p = l ++ back.rdropWhile p := by
  have hne : (back.reverse.dropWhile p).isEmpty = false :=
    List.isEmpty_eq_false_iff.mpr fun hnil => h (by rw [List.rdropWhile, hnil]; rfl)
  rw [List.rdropWhile, List.rdropWhile, List.reverse_append, List.dropWhile_append, if_neg (by simp [hne]),
    List.reverse_append, List.reverse_reverse]

/-- **What was taken off a list is taken off it again**, with a rest behind it that begins as the one
    it had. -/
theorem takeWhile_append_stable {α : Type} {p : α → Bool} {l k : List α}
    (h : ∀ x, k.head? = some x → (l.dropWhile p).head? = some x) :
    (l.takeWhile p ++ k).takeWhile p = l.takeWhile p ∧ (l.takeWhile p ++ k).dropWhile p = k := by
  have hall : ∀ x ∈ l.takeWhile p, p x = true := fun x hx => List.mem_takeWhile_imp hx
  have hk : k.takeWhile p = [] ∧ k.dropWhile p = k := by
    cases k with
    | nil => exact ⟨rfl, rfl⟩
    | cons x k =>
      have hx : p x = false := by
        have hnot := List.head?_dropWhile_not p l
        rw [h x rfl] at hnot
        exact hnot
      simp [hx]
  rw [List.takeWhile_append_of_pos hall, List.dropWhile_append_of_pos hall, hk.1, hk.2]
  exact ⟨List.append_nil _, rfl⟩

/-! ## Separators -/

/-- A text cut at its last separator is cut one way. -/
theorem append_last_inj {α : Type} {a : α} {x x' z z' : List α} (hz : a ∉ z) (hz' : a ∉ z')
    (h : x ++ a :: z = x' ++ a :: z') : x = x' ∧ z = z' := by
  rcases List.append_eq_append_iff.mp h with ⟨c, rfl, hc⟩ | ⟨c, rfl, hc⟩
  · cases c with
    | nil => exact ⟨(List.append_nil x).symm, (List.cons.inj hc).2⟩
    | cons b c =>
      obtain ⟨-, rfl⟩ := List.cons.inj hc
      exact absurd (List.mem_append_right c List.mem_cons_self) hz
  · cases c with
    | nil => exact ⟨List.append_nil x', (List.cons.inj hc).2.symm⟩
    | cons b c =>
      obtain ⟨-, rfl⟩ := List.cons.inj hc
      exact absurd (List.mem_append_right c List.mem_cons_self) hz'

/-! ## Fields -/

/-- Fields each ended by a mark split into what they are. -/
theorem splitOn_ended {α : Type} [DecidableEq α] {mark : α} {fields : List (List α)}
    (h : ∀ field ∈ fields, mark ∉ field) :
    (fields.flatMap fun field => field ++ [mark]).splitOn mark = fields ++ [[]] := by
  induction fields with
  | nil => rfl
  | cons field fields ih =>
    rw [List.flatMap_cons, List.append_assoc]
    show (field ++ mark :: fields.flatMap fun field => field ++ [mark]).splitOn mark = _
    rw [List.splitOn_append_cons_self_of_not_mem (h field List.mem_cons_self),
      ih fun f hf => h f (List.mem_cons_of_mem _ hf)]
    rfl

/-! ## Paths -/

/-- The names of a path, in order: the `Normal` components `Path::components` gives. -/
def names (path : String) : List String :=
  ((path.toList.splitOn '/').map String.ofList).filter fun name =>
    name ≠ "" ∧ name ≠ "." ∧ name ≠ ".."

/-- No part of a split text holds what it is split at. -/
theorem not_mem_of_mem_splitOn {α : Type} [DecidableEq α] {a : α} {text part : List α}
    (h : part ∈ text.splitOn a) : a ∉ part := by
  induction text generalizing part with
  | nil => simp_all
  | cons x text ih =>
    rw [List.splitOn_cons_eq_if_modifyHead] at h
    split at h
    · rcases List.mem_cons.mp h with rfl | h
      · exact List.not_mem_nil
      · exact ih h
    · next hx =>
      cases hparts : text.splitOn a with
      | nil => exact absurd hparts (List.splitOn_ne_nil a text)
      | cons first parts =>
        rw [hparts] at h ih
        rcases List.mem_cons.mp h with rfl | h
        · have hfirst : a ∉ first := ih List.mem_cons_self
          have hne : a ≠ x := by
            rintro rfl
            simp at hx
          simp [hne, hfirst]
        · exact ih (List.mem_cons_of_mem _ h)

end Text
