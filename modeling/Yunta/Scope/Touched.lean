/-
  The files a grant's bound counts, and those the audit of a diff reports.

  1. **Listings** — git prints a changed path on a line of its own, quoted where it holds a control
     character, a quote, a backslash or a byte past ASCII (`printed`).  The bound reads those lines
     (`diffPaths`); the audit reads the same paths separated by NULs, where nothing is quoted.

  2. **Quoting** — what is printed is ASCII, holds no line end and is printed for one name only, so
     the lines are the printed names and as many as the names (`lines_listing`, `printed_inj`).

  3. **Main result** — `touchedUnder_eq_iff`: the bound counts the files the audit reports and an
     asked glob selects exactly where the globs build one set and quoting changes no count: as many
     quoted names are selected by what git prints of them as by themselves.  Otherwise a grant gets
     past its bound (`not_touchedUnder_eq`).

  The audit leaves out the old name of a file git says was renamed, and the bound counts it.
-/
import Yunta.Git.Numstat
import Yunta.Lib.Utf8
import Yunta.Scope.Expansion
import Mathlib.Data.Char
import Mathlib.Data.List.Destutter
import Mathlib.Data.List.Lex

set_option linter.unusedVariables false

namespace Yunta.Touched

open Expansion
open Framing
open Git (GitPath)

/-! ## What git prints -/

/-- The letter git names a byte by, after a backslash. -/
def named : UInt8 → Option UInt8
  | 7 => some 97
  | 8 => some 98
  | 9 => some 116
  | 10 => some 110
  | 11 => some 118
  | 12 => some 102
  | 13 => some 114
  | 34 => some 34
  | 92 => some 92
  | _ => none

/-- Whether git quotes a name for this byte. -/
def special (byte : UInt8) : Bool :=
  byte.toNat < 0x20 || byte = 34 || byte = 92 || 0x7F ≤ byte.toNat

/-- The three octal digits of a byte. -/
def octal (byte : UInt8) : Bytes :=
  [digitByte (byte.toNat / 64), digitByte (byte.toNat / 8 % 8), digitByte (byte.toNat % 8)]

/-- A byte as it stands between quotes. -/
def escaped (byte : UInt8) : Bytes :=
  match named byte with
  | some letter => [92, letter]
  | none => if special byte then 92 :: octal byte else [byte]

/-- Whether git quotes a name. -/
def quoted (name : Bytes) : Bool := name.any special

/-- A name as git prints it where no `-z` is given. -/
def printed (name : Bytes) : Bytes :=
  if quoted name then 34 :: (name.flatMap escaped ++ [34]) else name

/-- Names each on a line of its own. -/
def listing (names : List GitPath) : Bytes := names.flatMap fun name => printed name.bytes ++ [10]

/-- Names each ended by a NUL, as `-z` prints them. -/
def listingZ (names : List GitPath) : Bytes := names.flatMap fun name => name.bytes ++ [0]

/-! ## What the engine reads -/

/-- A line without the carriage return it ends in. -/
def chomp (line : List Char) : List Char :=
  if line.getLast? = some '\r' then line.dropLast else line

/-- `str::lines`. -/
def lines (text : String) : List String :=
  let parts := text.toList.splitOn '\n'
  let parts := if parts.getLast? = some [] then parts.dropLast else parts
  parts.map fun line => .ofList (chomp line)

/-- The components of a path, by which paths are sorted. -/
def components (path : PathBuf) : List (List Char) := path.toList.splitOn '/'

/-- **`diff_paths`**: the files an attempt touched, from what `git diff --name-only HEAD` and
    `git ls-files --others` print, each once. -/
def diffPaths (tracked untracked : Bytes) : List PathBuf :=
  let paths := lines (Utf8.lossy tracked) ++ lines (Utf8.lossy untracked)
  (paths.mergeSort fun a b => components a ≤ components b).destutter (· ≠ ·)

/-- The paths of a `-z` listing. -/
def nulSeparatedPaths (bytes : Bytes) : List Bytes := (bytes.splitOn 0).filter fun part => part ≠ []

/-! ## Quoting -/

/-- No letter git names a byte by is a digit. -/
theorem named_notDigit {byte letter : UInt8} (h : named byte = some letter) :
    letter.toNat < 48 ∨ 57 < letter.toNat := by
  unfold named at h
  split at h <;> first | cases h; decide | cases h

theorem named_inj {a b letter : UInt8} (ha : named a = some letter) (hb : named b = some letter) :
    a = b := by
  unfold named at ha hb
  split at ha <;> split at hb <;> first | rfl | cases ha <;> cases hb

/-- A byte stands for itself, by its letter, or by its octal digits. -/
theorem escaped_cases (byte : UInt8) :
    (special byte = false ∧ escaped byte = [byte]) ∨
      (∃ letter, named byte = some letter ∧ escaped byte = [92, letter]) ∨
      special byte = true ∧ escaped byte = 92 :: octal byte := by
  unfold escaped
  cases hnamed : named byte with
  | some letter => exact .inr (.inl ⟨letter, rfl, rfl⟩)
  | none =>
    cases hspecial : special byte with
    | true => exact .inr (.inr ⟨rfl, rfl⟩)
    | false => exact .inl ⟨rfl, rfl⟩

theorem octal_inj {a b : UInt8} (h : octal a = octal b) : a = b := by
  have hdigit : ∀ {m n : Nat}, m < 8 → n < 8 → digitByte m = digitByte n → m = n := by
    intro m n hm hn heq
    have hnat := congrArg UInt8.toNat heq
    rw [toNat_digitByte (by omega), toNat_digitByte (by omega)] at hnat
    omega
  have ha := a.toNat_lt
  have hb := b.toNat_lt
  simp only [octal, List.cons.injEq, and_true] at h
  have hhigh := hdigit (by omega) (by omega) h.1
  have hmid := hdigit (by omega) (by omega) h.2.1
  have hlow := hdigit (by omega) (by omega) h.2.2
  exact UInt8.toNat_inj.mp (by omega)

/-- The first digit of a byte is one. -/
theorem octal_first (byte : UInt8) :
    48 ≤ (digitByte (byte.toNat / 64)).toNat ∧ (digitByte (byte.toNat / 64)).toNat ≤ 57 := by
  have hlt := byte.toNat_lt
  rw [toNat_digitByte (by omega)]
  omega

theorem ne_backslash {byte : UInt8} (h : special byte = false) : byte ≠ 92 := by
  rintro rfl
  cases h

/-- **Escaping reads back from the front.** -/
theorem escaped_append_inj {a b : UInt8} {s t : Bytes} (h : escaped a ++ s = escaped b ++ t) :
    a = b ∧ s = t := by
  have hmixed : ∀ {x y letter : UInt8} {s t : Bytes}, named x = some letter →
      [92, letter] ++ s ≠ (92 :: octal y) ++ t := by
    intro x y letter s t hx heq
    have hletter : letter = digitByte (y.toNat / 64) := by
      simp only [octal, List.cons_append, List.cons.injEq, true_and] at heq
      exact heq.1
    have hfirst := octal_first y
    have hnot := named_notDigit hx
    rw [hletter] at hnot
    omega
  rcases escaped_cases a with ⟨ha, ea⟩ | ⟨la, ha, ea⟩ | ⟨ha, ea⟩ <;>
    rcases escaped_cases b with ⟨hb, eb⟩ | ⟨lb, hb, eb⟩ | ⟨hb, eb⟩ <;> rw [ea, eb] at h
  · simpa using h
  · exact absurd (List.cons.inj h).1 (ne_backslash ha)
  · exact absurd (List.cons.inj h).1 (ne_backslash ha)
  · exact absurd (List.cons.inj h).1.symm (ne_backslash hb)
  · simp only [List.cons_append, List.nil_append, List.cons.injEq, true_and] at h
    obtain ⟨rfl, rfl⟩ := h
    exact ⟨named_inj ha hb, rfl⟩
  · exact absurd h (hmixed ha)
  · exact absurd (List.cons.inj h).1.symm (ne_backslash hb)
  · exact absurd h.symm (hmixed hb)
  · obtain ⟨hoctal, rfl⟩ := List.append_inj h rfl
    exact ⟨octal_inj (List.cons.inj hoctal).2, rfl⟩

theorem escaped_ne_nil (byte : UInt8) : escaped byte ≠ [] := by
  rcases escaped_cases byte with ⟨-, h⟩ | ⟨letter, -, h⟩ | ⟨-, h⟩ <;> rw [h] <;>
    exact List.cons_ne_nil _ _

theorem flatMap_escaped_inj {a b : Bytes} (h : a.flatMap escaped = b.flatMap escaped) : a = b := by
  induction a generalizing b with
  | nil =>
    cases b with
    | nil => rfl
    | cons y b => exact absurd (List.append_eq_nil_iff.mp h.symm).1 (escaped_ne_nil y)
  | cons x a ih =>
    cases b with
    | nil => exact absurd (List.append_eq_nil_iff.mp h).1 (escaped_ne_nil x)
    | cons y b =>
      obtain ⟨rfl, hrest⟩ := escaped_append_inj h
      rw [ih hrest]

/-- A name that is not quoted holds no quote. -/
theorem head_of_plain {name rest : Bytes} (h : quoted name = false) : name ≠ 34 :: rest := by
  rintro rfl
  cases h

/-- **What git prints of a name is printed of that name only.** -/
theorem printed_inj {a b : Bytes} (h : printed a = printed b) : a = b := by
  unfold printed at h
  cases ha : quoted a <;> cases hb : quoted b <;> rw [ha, hb] at h
  · exact h
  · exact absurd h (head_of_plain ha)
  · exact absurd h.symm (head_of_plain hb)
  · exact flatMap_escaped_inj (List.append_cancel_right (List.cons.inj h).2)

/-- **What git prints of a name** is printable ASCII. -/
theorem printed_ascii {name : Bytes} {byte : UInt8} (h : byte ∈ printed name) :
    0x20 ≤ byte.toNat ∧ byte.toNat < 0x7F := by
  have hplain : ∀ {x : UInt8}, special x = false → 0x20 ≤ x.toNat ∧ x.toNat < 0x7F := by
    intro x hx
    simp only [special, Bool.or_eq_false_iff, decide_eq_false_iff_not] at hx
    omega
  unfold printed at h
  split at h
  · rcases List.mem_cons.mp h with rfl | h
    · decide
    rcases List.mem_append.mp h with h | h
    · obtain ⟨x, -, hx⟩ := List.mem_flatMap.mp h
      rcases escaped_cases x with ⟨hspecial, hesc⟩ | ⟨letter, hnamed, hesc⟩ | ⟨-, hesc⟩
      · rw [hesc, List.mem_singleton] at hx
        exact hx ▸ hplain hspecial
      · rw [hesc] at hx
        have hletter : 0x20 ≤ letter.toNat ∧ letter.toNat < 0x7F := by
          unfold named at hnamed
          split at hnamed <;> first | cases hnamed; decide | cases hnamed
        rcases List.mem_cons.mp hx with rfl | hx
        · decide
        · rw [List.mem_singleton.mp hx]
          exact hletter
      · rw [hesc] at hx
        have hlt := x.toNat_lt
        simp only [octal, List.mem_cons, List.not_mem_nil, or_false] at hx
        rcases hx with rfl | rfl | rfl | rfl
        · decide
        all_goals
          rw [toNat_digitByte (by omega)]
          omega
    · rw [List.mem_singleton.mp h]
      decide
  · next hquoted =>
    have hnone := List.any_eq_false.mp (Bool.not_eq_true _ ▸ hquoted) byte h
    exact hplain (Bool.not_eq_true _ ▸ hnone)

/-! ## What is read -/

/-- What the engine reads of a printed name: its characters. -/
def spelled (name : Bytes) : PathBuf := .ofList ((printed name).map Utf8.asciiChar)

/-- The path read of a printed name has the printed bytes. -/
theorem utf8_spelled (name : Bytes) : utf8 (spelled name) = printed name :=
  Utf8.utf8_ascii fun byte hmem => by
    have hascii := printed_ascii hmem
    omega

theorem spelled_inj {a b : Bytes} (h : spelled a = spelled b) : a = b :=
  printed_inj (by rw [← utf8_spelled a, ← utf8_spelled b, h])

/-- A character of a printed name is no control character. -/
theorem not_control {name : Bytes} {c : Char} (h : c ∈ (printed name).map Utf8.asciiChar) :
    0x20 ≤ c.toNat := by
  obtain ⟨byte, hmem, rfl⟩ := List.mem_map.mp h
  have hascii := printed_ascii hmem
  rw [Utf8.toNat_asciiChar (by omega)]
  exact hascii.1

/-- **The lines of a listing** are its names as git prints them. -/
theorem lines_listing (names : List GitPath) :
    lines (Utf8.lossy (listing names)) = names.map fun name => spelled name.bytes := by
  have hascii : ∀ byte ∈ listing names, byte.toNat < 0x80 := by
    intro byte hmem
    obtain ⟨name, -, hbyte⟩ := List.mem_flatMap.mp hmem
    rcases List.mem_append.mp hbyte with hbyte | hbyte
    · have := printed_ascii hbyte
      omega
    · rw [List.mem_singleton.mp hbyte]
      decide
  have hparts : (Utf8.lossy (listing names)).toList.splitOn '\n' =
      (names.map fun name => (printed name.bytes).map Utf8.asciiChar) ++ [[]] := by
    have htext : (listing names).map Utf8.asciiChar =
        (names.map fun name => (printed name.bytes).map Utf8.asciiChar).flatMap
          fun line => line ++ ['\n'] := by
      rw [listing, List.map_flatMap, List.flatMap_map]
      refine List.flatMap_congr fun name _ => ?_
      rw [List.map_append]
      rfl
    rw [Utf8.lossy_ascii hascii, String.toList_ofList, htext]
    refine Text.splitOn_ended fun line hline hmem => ?_
    obtain ⟨name, -, rfl⟩ := List.mem_map.mp hline
    exact absurd (not_control hmem) (by decide)
  unfold lines
  dsimp only
  rw [hparts, List.getLast?_concat, if_pos rfl, List.dropLast_concat, List.map_map]
  refine List.map_congr_left fun name _ => ?_
  have hend : ((printed name.bytes).map Utf8.asciiChar).getLast? ≠ some '\r' := fun hlast =>
    absurd (not_control (List.mem_of_getLast? hlast)) (by decide)
  show String.ofList (chomp _) = _
  rw [chomp, if_neg hend]
  rfl

/-- The paths of a `-z` listing are its names. -/
theorem nulSeparatedPaths_listingZ (names : List GitPath) :
    nulSeparatedPaths (listingZ names) = names.map (·.bytes) := by
  have hparts : (listingZ names).splitOn 0 = names.map (·.bytes) ++ [[]] := by
    have htext : listingZ names =
        (names.map (·.bytes)).flatMap fun field => field ++ [0] := by
      rw [listingZ, List.flatMap_map]
    rw [htext]
    refine Text.splitOn_ended fun field hfield => ?_
    obtain ⟨name, -, rfl⟩ := List.mem_map.mp hfield
    exact name.noNul
  unfold nulSeparatedPaths
  rw [hparts, List.filter_append, List.filter_eq_self.mpr]
  · simp
  · intro field hfield
    obtain ⟨name, -, rfl⟩ := List.mem_map.mp hfield
    exact decide_eq_true name.nonempty

/-! ## Sorted, and each once -/

/-- A sorted list without its repetitions holds what it held. -/
theorem mem_destutter' {α : Type} [DecidableEq α] {x : α} (a : α) (l : List α) :
    x ∈ l.destutter' (· ≠ ·) a ↔ x ∈ a :: l := by
  induction l generalizing a with
  | nil => rfl
  | cons b l ih =>
    rw [List.destutter'_cons]
    split
    · rw [List.mem_cons, ih, ← List.mem_cons]
    · next hsame =>
      obtain rfl : a = b := not_not.mp hsame
      rw [ih]
      simp

/-- A sorted list without its repetitions holds each element once. -/
theorem nodup_destutter' {α β : Type} [DecidableEq α] [LinearOrder β] {key : α → β}
    (hkey : Function.Injective key) (a : α) (l : List α)
    (h : (a :: l).Pairwise fun x y => key x ≤ key y) :
    (l.destutter' (· ≠ ·) a).Pairwise fun x y => key x < key y := by
  induction l generalizing a with
  | nil => exact List.pairwise_singleton _ _
  | cons b l ih =>
    obtain ⟨hfirst, hrest⟩ := List.pairwise_cons.mp h
    rw [List.destutter'_cons]
    split
    · next hne =>
      have hlt : key a < key b :=
        lt_of_le_of_ne (hfirst b List.mem_cons_self) fun heq => hne (hkey heq)
      refine List.pairwise_cons.mpr ⟨fun x hx => ?_, ih b hrest⟩
      rcases List.mem_cons.mp ((mem_destutter' b l).mp hx) with rfl | hx
      · exact hlt
      · exact lt_of_lt_of_le hlt ((List.pairwise_cons.mp hrest).1 x hx)
    · refine ih a (List.pairwise_cons.mpr ⟨fun x hx => ?_, (List.pairwise_cons.mp hrest).2⟩)
      exact hfirst x (List.mem_cons_of_mem _ hx)

theorem components_inj : Function.Injective components := by
  intro a b h
  have hjoin := congrArg (['/'].intercalate ·) h
  simp only [components, List.intercalate_splitOn] at hjoin
  exact String.toList_inj.mp hjoin

/-- **Sorting and taking repetitions out** keeps each path, once. -/
theorem diffPaths_spec (tracked untracked : Bytes) :
    (diffPaths tracked untracked).Nodup ∧ ∀ path, path ∈ diffPaths tracked untracked ↔
      path ∈ lines (Utf8.lossy tracked) ++ lines (Utf8.lossy untracked) := by
  have hsorted : ((lines (Utf8.lossy tracked) ++ lines (Utf8.lossy untracked)).mergeSort
      fun a b => components a ≤ components b).Pairwise fun a b => components a ≤ components b := by
    have htrans : ∀ a b c : PathBuf, decide (components a ≤ components b) = true →
        decide (components b ≤ components c) = true →
        decide (components a ≤ components c) = true := by
      intro a b c hab hbc
      exact decide_eq_true (le_trans (of_decide_eq_true hab) (of_decide_eq_true hbc))
    have htotal : ∀ a b : PathBuf,
        (decide (components a ≤ components b) || decide (components b ≤ components a)) = true := by
      intro a b
      rcases le_total (components a) (components b) with h | h <;> simp [h]
    exact (List.pairwise_mergeSort htrans htotal _).imp fun h => of_decide_eq_true h
  have hperm := List.mergeSort_perm (lines (Utf8.lossy tracked) ++ lines (Utf8.lossy untracked))
    fun a b => components a ≤ components b
  unfold diffPaths
  dsimp only
  generalize (lines (Utf8.lossy tracked) ++ lines (Utf8.lossy untracked)).mergeSort
    (fun a b => components a ≤ components b) = sorted at hsorted hperm ⊢
  cases sorted with
  | nil => exact ⟨.nil, fun path => hperm.mem_iff⟩
  | cons first rest =>
    refine ⟨?_, fun path => (mem_destutter' first rest).trans hperm.mem_iff⟩
    have hlt := nodup_destutter' components_inj first rest hsorted
    refine hlt.imp fun {a b} (h : components a < components b) (heq : a = b) => ?_
    rw [heq] at h
    exact lt_irrefl _ h

/-! ## What is counted -/

/-- The files a unit of work changed: those git tracks and those it does not, as the bound's two
    listings name them, and those the audit's diff reports.  That diff leaves out the old name of a
    file git says was renamed. -/
structure Changed where
  tracked : List GitPath
  untracked : List GitPath
  reported : List GitPath
  nodup : (reported.map (·.bytes)).Nodup
  among : ∀ name ∈ reported.map (·.bytes), name ∈ (tracked ++ untracked).map (·.bytes)

/-- The changed names, each once. -/
def Changed.names (w : Changed) : List Bytes := ((w.tracked ++ w.untracked).map (·.bytes)).dedup

section
variable (selects : ScopeGlob → Bytes → Bool) (builds : List ScopeGlob → Bool) (c : Candidate)

/-- Whether an asked glob selects a path. -/
def asked (path : Bytes) : Bool := c.paths.any fun glob => selects glob path

/-- The files the bound counts: `touched_under` of the paths `diff_paths` reads. -/
def bounding (w : Changed) : Nat :=
  touchedUnder (fun glob path => selects glob (utf8 path)) builds c
    (diffPaths (listing w.tracked) (listing w.untracked))

/-- The files the audit's diff reports that an asked glob selects. -/
def audited (w : Changed) : Nat :=
  (nulSeparatedPaths (listingZ w.reported)).countP (asked selects c)

/-- **What quoting leaves of the count**: the globs build one set, and the quoted names selected by
    what git prints of them, with the plain names the audit leaves out, are as many as the quoted
    names it reports and selects.  A set that does not build counts as `usize::MAX`. -/
def Counted (w : Changed) : Prop :=
  if builds c.paths then
    w.names.countP (fun name => quoted name && asked selects c (printed name)) +
        w.names.countP (fun name => !quoted name && asked selects c name &&
          !(w.reported.map (·.bytes)).contains name) =
      (w.reported.map (·.bytes)).countP fun name => quoted name && asked selects c name
  else audited selects c w = 2 ^ 64 - 1

instance (w : Changed) : Decidable (Counted selects builds c w) := by
  unfold Counted
  infer_instance

end

section
variable {selects : ScopeGlob → Bytes → Bool} {builds : List ScopeGlob → Bool} {c : Candidate}

/-- The paths the bound reads are the changed names as git prints them. -/
theorem perm_diffPaths (w : Changed) :
    (diffPaths (listing w.tracked) (listing w.untracked)).Perm (w.names.map spelled) := by
  obtain ⟨hnodup, hmem⟩ := diffPaths_spec (listing w.tracked) (listing w.untracked)
  have hnames : (w.names.map spelled).Nodup :=
    (List.nodup_dedup _).map fun a b => spelled_inj
  refine (List.perm_ext_iff_of_nodup hnodup hnames).mpr fun path => ?_
  rw [hmem, lines_listing, lines_listing, ← List.map_append]
  simp only [Changed.names, List.mem_map, List.mem_dedup]
  constructor
  · rintro ⟨name, hname, rfl⟩
    exact ⟨name.bytes, ⟨name, hname, rfl⟩, rfl⟩
  · rintro ⟨-, ⟨name, hname, rfl⟩, rfl⟩
    exact ⟨name, hname, rfl⟩

/-- The bound counts the names that are selected by what git prints of them. -/
theorem bounding_eq (w : Changed) (hbuilds : builds c.paths = true) :
    bounding selects builds c w = w.names.countP fun name => asked selects c (printed name) := by
  unfold bounding touchedUnder
  rw [if_pos hbuilds, ← List.countP_eq_length_filter, (perm_diffPaths w).countP_eq, List.countP_map]
  refine List.countP_congr fun name _ => ?_
  show (c.paths.any fun glob => selects glob (utf8 (spelled name))) = true ↔ _
  rw [utf8_spelled]
  rfl

theorem audited_eq (w : Changed) :
    audited selects c w = (w.reported.map (·.bytes)).countP (asked selects c) := by
  rw [audited, nulSeparatedPaths_listingZ]

/-- A count split at a condition. -/
theorem countP_split {α : Type} (l : List α) (p q : α → Bool) :
    l.countP p = l.countP (fun x => q x && p x) + l.countP fun x => !q x && p x := by
  induction l with
  | nil => rfl
  | cons x l ih =>
    simp only [List.countP_cons, ih]
    cases q x <;> cases p x <;> simp <;> omega

/-- The plain names the audit reports are the plain names but those it leaves out. -/
theorem countP_plain (w : Changed) :
    w.names.countP (fun name => !quoted name && asked selects c name) =
      (w.reported.map (·.bytes)).countP (fun name => !quoted name && asked selects c name) +
        w.names.countP (fun name => !quoted name && asked selects c name &&
          !(w.reported.map (·.bytes)).contains name) := by
  rw [countP_split w.names _ fun name => (w.reported.map (·.bytes)).contains name]
  congr 1
  · have hperm : (w.names.filter fun name => (w.reported.map (·.bytes)).contains name).Perm
        (w.reported.map (·.bytes)) := by
      refine (List.perm_ext_iff_of_nodup ((List.nodup_dedup _).filter _) w.nodup).mpr fun name => ?_
      rw [List.mem_filter, List.contains_iff_mem]
      exact ⟨fun h => h.2, fun h => ⟨List.mem_dedup.mpr (w.among name h), h⟩⟩
    rw [← hperm.countP_eq, List.countP_filter]
    refine List.countP_congr fun name _ => ?_
    rw [Bool.and_comm]
  · refine List.countP_congr fun name _ => ?_
    rw [Bool.and_comm]

/-- **The bound counts what the audit reports** of the files an asked glob selects, exactly where
    quoting and renames leave the count as it is. -/
theorem touchedUnder_eq_iff (selects : ScopeGlob → Bytes → Bool) (builds : List ScopeGlob → Bool)
    (c : Candidate) (w : Changed) :
    bounding selects builds c w = audited selects c w ↔ Counted selects builds c w := by
  unfold Counted
  split
  · next hbuilds =>
    have hprinted : w.names.countP (fun name => asked selects c (printed name)) =
        w.names.countP (fun name => quoted name && asked selects c (printed name)) +
          w.names.countP fun name => !quoted name && asked selects c name := by
      rw [countP_split w.names _ quoted]
      congr 1
      refine List.countP_congr fun name _ => ?_
      cases hquoted : quoted name with
      | true => simp
      | false => rw [printed, if_neg (by simp [hquoted])]
    have hreported := countP_split (w.reported.map (·.bytes)) (asked selects c) quoted
    rw [bounding_eq w hbuilds, audited_eq, hprinted, countP_plain, hreported]
    omega
  · next hbuilds =>
    unfold bounding touchedUnder
    rw [if_neg hbuilds]
    exact eq_comm

end

/-! ## A grant past its bound -/

/-- A matcher of the globs that name all a directory holds, as `globset` reads them. -/
def underSelects (glob : ScopeGlob) (path : Bytes) : Bool :=
  let directory := (utf8 glob).dropLast.dropLast
  utf8 glob = directory ++ [42, 42] && directory.isPrefixOf path && path ≠ directory

/-- The candidate of a request for `paths`, under rules. -/
def candidate (paths : List ScopeGlob) : Candidate := ⟨paths, .rule, true⟩

/-- Two files an attempt added, one of which has a name past ASCII. -/
def sampleChanged : Changed where
  tracked := []
  untracked := [⟨utf8 "src/a.rs", by decide +kernel, by decide +kernel⟩,
    ⟨utf8 "src/café.rs", by decide +kernel, by decide +kernel⟩]
  reported := [⟨utf8 "src/a.rs", by decide +kernel, by decide +kernel⟩,
    ⟨utf8 "src/café.rs", by decide +kernel, by decide +kernel⟩]
  nodup := by decide +kernel
  among := by decide +kernel

/-- The bound counts one of two files: git quotes the other, and no glob selects what it prints. -/
theorem not_touchedUnder_eq :
    bounding underSelects (fun _ => true) (candidate ["src/**"]) sampleChanged = 1 ∧
      audited underSelects (candidate ["src/**"]) sampleChanged = 2 := by
  rw [bounding_eq sampleChanged rfl, audited_eq]
  decide +kernel

end Yunta.Touched
