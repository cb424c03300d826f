/-
  Stretches of a text, and pieces laid one after another.

  1. **Spans** — a span is two places in a text; what a text says there is `slice`, and what it says
     at two spans that meet is what it says at both (`slice_append`).

  2. **In order** — `InOrder lo l hi`: each span of `l` ends no later than the next one starts, all of
     them between `lo` and `hi`.

  3. **Lines** — a stretch cut at a mark: the cuts stand in order, say what the stretch says between
     its marks, and each ends at a mark or with the stretch (`linesFrom_spec`).

  4. **Tilings** — `Tiles lo l hi`: each piece starts where the one before it ends.  Pieces that tile
     the same way may take each other's place (`Tiles.splice`).
-/
import Yunta.Lib.Text

set_option linter.unusedVariables false

namespace Spans

structure Span where
  start : Nat
  stop : Nat
  deriving DecidableEq

variable {α : Type}

/-! ## What a text says -/

def slice (text : List α) (s : Span) : List α := (text.drop s.start).take (s.stop - s.start)

theorem slice_append (text : List α) {a b c : Nat} (hab : a ≤ b) (hbc : b ≤ c) :
    slice text ⟨a, b⟩ ++ slice text ⟨b, c⟩ = slice text ⟨a, c⟩ := by
  show (text.drop a).take (b - a) ++ (text.drop b).take (c - b) = (text.drop a).take (c - a)
  rw [show c - a = (b - a) + (c - b) by omega, List.take_add, List.drop_drop,
    show a + (b - a) = b by omega]

theorem slice_nil (text : List α) {a b : Nat} (h : b ≤ a) : slice text ⟨a, b⟩ = [] := by
  show (text.drop a).take (b - a) = []
  rw [show b - a = 0 by omega, List.take_zero]

theorem slice_all (text : List α) : slice text ⟨0, text.length⟩ = text := by
  show (text.drop 0).take (text.length - 0) = text
  rw [List.drop_zero, Nat.sub_zero, List.take_length]

theorem length_slice {text : List α} {s : Span} (h : s.stop ≤ text.length) :
    (slice text s).length = s.stop - s.start := by
  rw [slice, List.length_take, List.length_drop]
  omega

theorem mem_slice {text : List α} {s : Span} {i : Nat} {a : α} (hi : text[i]? = some a)
    (hstart : s.start ≤ i) (hstop : i < s.stop) : a ∈ slice text s := by
  refine List.mem_of_getElem? (i := i - s.start) ?_
  rw [slice, List.getElem?_take_of_lt (by omega), List.getElem?_drop,
    show s.start + (i - s.start) = i by omega, hi]

/-- A stretch that says two things says them one after the other. -/
theorem slice_eq_append {text : List α} {a c : Nat} {x y : List α} (hac : a ≤ c)
    (hc : c ≤ text.length) (h : slice text ⟨a, c⟩ = x ++ y) :
    a + x.length ≤ c ∧ slice text ⟨a, a + x.length⟩ = x ∧ slice text ⟨a + x.length, c⟩ = y := by
  have hlength := congrArg List.length h
  rw [length_slice hc, List.length_append] at hlength
  have hle : a + x.length ≤ c := by
    dsimp only at hlength
    omega
  rw [← slice_append text (Nat.le_add_right a x.length) hle] at h
  have hx : (slice text ⟨a, a + x.length⟩).length = x.length := by
    rw [length_slice (Nat.le_trans hle hc)]
    dsimp only
    omega
  exact ⟨hle, List.append_inj h hx⟩

/-! ## Spans in order -/

/-- Each span ends no later than the next one starts, all between `lo` and `hi`. -/
def InOrder : Nat → List Span → Nat → Prop
  | lo, [], hi => lo ≤ hi
  | lo, s :: rest, hi => lo ≤ s.start ∧ s.start ≤ s.stop ∧ InOrder s.stop rest hi

instance decidableInOrder : (lo : Nat) → (l : List Span) → (hi : Nat) → Decidable (InOrder lo l hi)
  | lo, [], hi => inferInstanceAs (Decidable (lo ≤ hi))
  | lo, s :: rest, hi =>
    have := decidableInOrder s.stop rest hi
    inferInstanceAs (Decidable (lo ≤ s.start ∧ s.start ≤ s.stop ∧ InOrder s.stop rest hi))

theorem InOrder.le {lo hi : Nat} {l : List Span} (h : InOrder lo l hi) : lo ≤ hi := by
  induction l generalizing lo with
  | nil => exact h
  | cons s rest ih =>
    obtain ⟨hlo, hs, hrest⟩ := h
    have := ih hrest
    omega

theorem InOrder.mono {lo lo' hi hi' : Nat} {l : List Span} (h : InOrder lo l hi) (hlo : lo' ≤ lo)
    (hhi : hi ≤ hi') : InOrder lo' l hi' := by
  induction l generalizing lo lo' with
  | nil => exact Nat.le_trans hlo (Nat.le_trans h hhi)
  | cons s rest ih => exact ⟨Nat.le_trans hlo h.1, h.2.1, ih h.2.2 le_rfl⟩

theorem inOrder_append {lo hi : Nat} {l l' : List Span} :
    InOrder lo (l ++ l') hi ↔ ∃ mid, InOrder lo l mid ∧ InOrder mid l' hi := by
  induction l generalizing lo with
  | nil =>
    constructor
    · exact fun h => ⟨lo, le_rfl, h⟩
    · rintro ⟨mid, hle, h⟩
      exact h.mono hle le_rfl
  | cons s rest ih =>
    constructor
    · rintro ⟨hlo, hs, h⟩
      obtain ⟨mid, h, h'⟩ := ih.mp h
      exact ⟨mid, ⟨hlo, hs, h⟩, h'⟩
    · rintro ⟨mid, ⟨hlo, hs, h⟩, h'⟩
      exact ⟨hlo, hs, ih.mpr ⟨mid, h, h'⟩⟩

theorem InOrder.mem {lo hi : Nat} {l : List Span} (h : InOrder lo l hi) {s : Span} (hs : s ∈ l) :
    lo ≤ s.start ∧ s.start ≤ s.stop ∧ s.stop ≤ hi := by
  induction l generalizing lo with
  | nil => cases hs
  | cons first rest ih =>
    obtain ⟨hlo, hfirst, hrest⟩ := h
    rcases List.mem_cons.mp hs with rfl | hs
    · exact ⟨hlo, hfirst, hrest.le⟩
    · obtain ⟨hstart, hstop⟩ := ih hrest hs
      exact ⟨by omega, hstop⟩

theorem InOrder.pairwise {lo hi : Nat} {l : List Span} (h : InOrder lo l hi) :
    l.Pairwise fun a b => a.stop ≤ b.start := by
  induction l generalizing lo with
  | nil => exact .nil
  | cons first rest ih =>
    exact List.pairwise_cons.mpr ⟨fun s hs => (h.2.2.mem hs).1, ih h.2.2⟩

theorem InOrder.filter {lo hi : Nat} {l : List Span} (h : InOrder lo l hi) (p : Span → Bool) :
    InOrder lo (l.filter p) hi := by
  induction l generalizing lo with
  | nil => exact h
  | cons s rest ih =>
    rw [List.filter_cons]
    split_ifs
    · exact ⟨h.1, h.2.1, ih h.2.2⟩
    · exact (ih h.2.2).mono (Nat.le_trans h.1 h.2.1) le_rfl

/-- What is put in the place of each span, in order between its ends, is in order. -/
theorem InOrder.flatMap {lo hi : Nat} {l : List Span} (h : InOrder lo l hi) {f : Span → List Span}
    (hf : ∀ s ∈ l, InOrder s.start (f s) s.stop) : InOrder lo (l.flatMap f) hi := by
  induction l generalizing lo with
  | nil => exact h
  | cons s rest ih =>
    refine inOrder_append.mpr ⟨s.stop, (hf s List.mem_cons_self).mono h.1 le_rfl, ?_⟩
    exact ih h.2.2 fun other hother => hf other (List.mem_cons_of_mem _ hother)

/-! ## Lines -/

/-- Where each of some pieces stands, the first at `start`, each one place after the one before. -/
def linesFrom (start : Nat) : List (List α) → List Span
  | [] => []
  | said :: rest => ⟨start, start + said.length⟩ :: linesFrom (start + said.length + 1) rest

theorem linesFrom_spec {text : List α} {mark : α} {stop : Nat} (hstop : stop ≤ text.length)
    {pieces : List (List α)} (hne : pieces ≠ []) {start : Nat} (hstart : start ≤ stop)
    (h : slice text ⟨start, stop⟩ = [mark].intercalate pieces) :
    InOrder start (linesFrom start pieces) stop ∧
      (linesFrom start pieces).map (slice text) = pieces ∧
      ∀ s ∈ linesFrom start pieces, s.stop = stop ∨ text[s.stop]? = some mark := by
  induction pieces generalizing start with
  | nil => exact absurd rfl hne
  | cons said rest ih =>
    cases rest with
    | nil =>
      have hsaid : slice text ⟨start, stop⟩ = said ++ [] := by simpa using h
      obtain ⟨hle, hfirst, hnone⟩ := slice_eq_append hstart hstop hsaid
      have hend : start + said.length = stop := by
        have := length_slice (s := ⟨start + said.length, stop⟩) hstop
        rw [hnone] at this
        simp only [List.length_nil] at this
        omega
      refine ⟨⟨le_rfl, Nat.le_add_right _ _, hle⟩, by simp [linesFrom, hfirst], ?_⟩
      intro s hs
      obtain rfl := List.mem_singleton.mp hs
      exact .inl hend
    | cons next rest =>
      rw [List.intercalate_cons_cons] at h
      obtain ⟨hle, hfirst, hafter⟩ := slice_eq_append hstart hstop
        (show slice text ⟨start, stop⟩ = said ++ ([mark] ++ [mark].intercalate (next :: rest)) by
          simpa using h)
      obtain ⟨hle', hmark, hrest⟩ := slice_eq_append hle hstop hafter
      obtain ⟨horder, hsaid, hends⟩ := ih (List.cons_ne_nil _ _) hle' hrest
      have hat : text[start + said.length]? = some mark := by
        have hhead := congrArg (·[0]?) hmark
        simpa [slice, List.getElem?_take, List.getElem?_drop] using hhead
      refine ⟨⟨le_rfl, Nat.le_add_right _ _, horder.mono (Nat.le_succ _) le_rfl⟩, ?_, ?_⟩
      · show slice text ⟨start, start + said.length⟩ :: _ = _
        rw [hfirst]
        exact congrArg _ hsaid
      · intro s hs
        rcases List.mem_cons.mp hs with rfl | hs
        · exact .inr hat
        · exact hends s hs

/-- The lines of a stretch, cut at a mark. -/
def linesOf [DecidableEq α] (mark : α) (text : List α) (s : Span) : List Span :=
  linesFrom s.start ((slice text s).splitOn mark)

section LinesOf

variable [DecidableEq α] {mark : α} {text : List α} {s : Span}

theorem linesOf_spec (mark : α) (hs : s.start ≤ s.stop) (hstop : s.stop ≤ text.length) :
    InOrder s.start (linesOf mark text s) s.stop ∧
      (linesOf mark text s).map (slice text) = (slice text s).splitOn mark ∧
      ∀ line ∈ linesOf mark text s, line.stop = s.stop ∨ text[line.stop]? = some mark :=
  linesFrom_spec hstop (List.splitOn_ne_nil mark _) hs (List.intercalate_splitOn _).symm

/-- No line says the mark. -/
theorem mark_notMem_line (hs : s.start ≤ s.stop) (hstop : s.stop ≤ text.length) {line : Span}
    (hline : line ∈ linesOf mark text s) : mark ∉ slice text line := by
  have hmem : slice text line ∈ (slice text s).splitOn mark :=
    (linesOf_spec mark hs hstop).2.1 ▸ List.mem_map_of_mem hline
  exact Text.not_mem_of_mem_splitOn hmem

end LinesOf

/-! ## Tilings -/

section Tiles

variable {ρ κ : Type} (start stop : ρ → κ) (ok : ρ → Prop)

/-- Each piece is as it should be, and starts where the one before it ends. -/
def Tiles : κ → List ρ → κ → Prop
  | lo, [], hi => lo = hi
  | lo, r :: rest, hi => start r = lo ∧ ok r ∧ Tiles (stop r) rest hi

variable {start stop ok}

theorem tiles_append {lo hi : κ} {l l' : List ρ} :
    Tiles start stop ok lo (l ++ l') hi ↔
      ∃ mid, Tiles start stop ok lo l mid ∧ Tiles start stop ok mid l' hi := by
  induction l generalizing lo with
  | nil =>
    constructor
    · exact fun h => ⟨lo, rfl, h⟩
    · rintro ⟨mid, rfl, h⟩
      exact h
  | cons r rest ih =>
    constructor
    · rintro ⟨hlo, hr, h⟩
      obtain ⟨mid, h, h'⟩ := ih.mp h
      exact ⟨mid, ⟨hlo, hr, h⟩, h'⟩
    · rintro ⟨mid, ⟨hlo, hr, h⟩, h'⟩
      exact ⟨hlo, hr, ih.mpr ⟨mid, h, h'⟩⟩

/-- Pieces that tile whatever those in their place do may stand there. -/
theorem Tiles.splice {lo hi : κ} {before new after : List ρ} (old : List ρ)
    (h : Tiles start stop ok lo (before ++ (old ++ after)) hi)
    (hnew : ∀ a b, Tiles start stop ok a old b → Tiles start stop ok a new b) :
    Tiles start stop ok lo (before ++ (new ++ after)) hi := by
  obtain ⟨a, hbefore, h⟩ := tiles_append.mp h
  obtain ⟨b, hold, hafter⟩ := tiles_append.mp h
  exact tiles_append.mpr ⟨a, hbefore, tiles_append.mpr ⟨b, hnew a b hold, hafter⟩⟩

theorem Tiles.mem {lo hi : κ} {l : List ρ} (h : Tiles start stop ok lo l hi) {r : ρ} (hr : r ∈ l) :
    ok r := by
  induction l generalizing lo with
  | nil => cases hr
  | cons first rest ih =>
    rcases List.mem_cons.mp hr with rfl | hr
    · exact h.2.1
    · exact ih h.2.2 hr

end Tiles

end Spans
