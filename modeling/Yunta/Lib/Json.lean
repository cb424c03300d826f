/-
  JSON values, and a rendering that depends on nothing but what they hold.

  `Value F` is a JSON value whose objects are each marked with an `F`; the plain values are
  `Value Unit`.

  1. **Rendering** — `render` writes a value without whitespace, its objects in their own order.  A
     string ends at its closing quote and a number at the first character that is none of its own,
     so a value is split off the front of what follows it (`render_append_inj`).

  2. **Sorting** — `sorted` puts the entries of each object that `sorts` chooses in the order of
     their keys.

  3. **Canonical** — `canonical` sorts the keys of every object as it writes.  Two values write the
     same exactly when they are the same once sorted (`canonical_inj`), and the order an object
     iterates its entries in is lost (`canonical_iterated`).
-/
import Std.Data.String.ToInt
import Mathlib.Data.List.Sort
import Mathlib.Data.String.Basic

set_option linter.unusedVariables false

namespace Json

/-- A JSON value with integers for numbers, each object marked. -/
inductive Value (F : Type) where
  | null
  | bool (b : Bool)
  | num (n : Int)
  | str (s : String)
  | arr (items : List (Value F))
  | obj (mark : F) (entries : List (String × Value F))

variable {F : Type}

/-- What holds of a value once it holds of its parts holds of every value. -/
theorem Value.induct {P : Value F → Prop} (null : P .null) (bool : ∀ b, P (.bool b))
    (num : ∀ n, P (.num n)) (str : ∀ s, P (.str s))
    (arr : ∀ items, (∀ v ∈ items, P v) → P (.arr items))
    (obj : ∀ mark entries, (∀ e ∈ entries, P e.2) → P (.obj mark entries)) (v : Value F) : P v := by
  refine @Value.rec F P (fun items => ∀ v ∈ items, P v) (fun entries => ∀ e ∈ entries, P e.2)
    (fun e => P e.2) null bool num str arr obj ?_ ?_ ?_ ?_ ?_ v
  · intro v hv
    cases hv
  · intro v items hv hitems w hw
    rcases List.mem_cons.mp hw with rfl | hw
    · exact hv
    · exact hitems w hw
  · intro e he
    cases he
  · intro e entries he hentries e' he'
    rcases List.mem_cons.mp he' with rfl | he'
    · exact he
    · exact hentries e' he'
  · intro key v hv
    exact hv

/-! ## Characters -/

/-- The hexadecimal digit of a number under sixteen. -/
def hex (n : Nat) : Char := if n < 10 then .ofNat (48 + n) else .ofNat (87 + n)

/-- What a string writes for one of its characters. -/
def escape (c : Char) : List Char :=
  if c = '"' then ['\\', '"']
  else if c = '\\' then ['\\', '\\']
  else if c.toNat = 8 then ['\\', 'b']
  else if c.toNat = 9 then ['\\', 't']
  else if c.toNat = 10 then ['\\', 'n']
  else if c.toNat = 12 then ['\\', 'f']
  else if c.toNat = 13 then ['\\', 'r']
  else if c.toNat < 32 then ['\\', 'u', '0', '0', hex (c.toNat / 16), hex (c.toNat % 16)]
  else [c]

/-- The number a hexadecimal digit stands for. -/
def unhex (c : Char) : Nat := if c.toNat < 58 then c.toNat - 48 else c.toNat - 87

/-- The character at the front of an escaped text, and what comes after it. -/
def unescape : List Char → Option (Char × List Char)
  | '\\' :: '"' :: rest => some ('"', rest)
  | '\\' :: '\\' :: rest => some ('\\', rest)
  | '\\' :: 'b' :: rest => some (.ofNat 8, rest)
  | '\\' :: 't' :: rest => some (.ofNat 9, rest)
  | '\\' :: 'n' :: rest => some (.ofNat 10, rest)
  | '\\' :: 'f' :: rest => some (.ofNat 12, rest)
  | '\\' :: 'r' :: rest => some (.ofNat 13, rest)
  | '\\' :: 'u' :: '0' :: '0' :: a :: b :: rest => some (.ofNat (16 * unhex a + unhex b), rest)
  | '"' :: _ => none
  | c :: rest => some (c, rest)
  | [] => none

theorem unhex_hex {n : Nat} (h : n < 16) : unhex (hex n) = n := by
  have hall : ∀ n < 16, unhex (hex n) = n := by decide
  exact hall n h

/-- **An escaped character is read back**, whatever follows it. -/
theorem unescape_escape (c : Char) (rest : List Char) :
    unescape (escape c ++ rest) = some (c, rest) := by
  have hback : ∀ n, c.toNat = n → Char.ofNat n = c := by
    rintro n rfl
    exact Char.ofNat_toNat c
  unfold escape
  split
  · next h => rw [h]; rfl
  split
  · next h => rw [h]; rfl
  split
  · next h => exact congrArg (fun c => some (c, rest)) (hback 8 h)
  split
  · next h => exact congrArg (fun c => some (c, rest)) (hback 9 h)
  split
  · next h => exact congrArg (fun c => some (c, rest)) (hback 10 h)
  split
  · next h => exact congrArg (fun c => some (c, rest)) (hback 12 h)
  split
  · next h => exact congrArg (fun c => some (c, rest)) (hback 13 h)
  split
  · next h =>
    have hread : 16 * unhex (hex (c.toNat / 16)) + unhex (hex (c.toNat % 16)) = c.toNat := by
      rw [unhex_hex (by omega), unhex_hex (by omega)]
      omega
    show some (Char.ofNat _, rest) = _
    rw [hread, Char.ofNat_toNat]
  · next hquote hslash _ _ _ _ _ _ =>
    show unescape (c :: rest) = _
    unfold unescape
    split <;> simp_all

/-- No escaped character starts as a closing quote does. -/
theorem escape_ne_quote (c : Char) (rest rest' : List Char) : escape c ++ rest ≠ '"' :: rest' := by
  intro h
  have hread := unescape_escape c rest
  rw [h] at hread
  cases hread

/-! ## Strings and numbers -/

/-- A string between its quotes. -/
def quote (s : String) : List Char := '"' :: (s.toList.flatMap escape ++ ['"'])

theorem escaped_append_inj {s s' r r' : List Char}
    (h : s.flatMap escape ++ '"' :: r = s'.flatMap escape ++ '"' :: r') : s = s' ∧ r = r' := by
  induction s generalizing s' with
  | nil =>
    cases s' with
    | nil => exact ⟨rfl, List.tail_eq_of_cons_eq h⟩
    | cons c s' =>
      rw [List.flatMap_cons, List.append_assoc] at h
      exact absurd h.symm (escape_ne_quote c _ r)
  | cons c s ih =>
    cases s' with
    | nil =>
      rw [List.flatMap_cons, List.append_assoc] at h
      exact absurd h (escape_ne_quote c _ r')
    | cons c' s' =>
      rw [List.flatMap_cons, List.append_assoc, List.flatMap_cons, List.append_assoc] at h
      have hread := congrArg unescape h
      rw [unescape_escape, unescape_escape, Option.some.injEq, Prod.mk.injEq] at hread
      obtain ⟨rfl, hrest⟩ := hread
      obtain ⟨rfl, rfl⟩ := ih hrest
      exact ⟨rfl, rfl⟩

/-- **A quoted string is split off what follows it.** -/
theorem quote_append_inj {s s' : String} {r r' : List Char} (h : quote s ++ r = quote s' ++ r') :
    s = s' ∧ r = r' := by
  have htail : (s.toList.flatMap escape ++ ['"']) ++ r = (s'.toList.flatMap escape ++ ['"']) ++ r' :=
    List.tail_eq_of_cons_eq h
  rw [List.append_assoc, List.append_assoc] at htail
  obtain ⟨hs, hr⟩ := escaped_append_inj htail
  exact ⟨String.toList_injective hs, hr⟩

/-- The decimal digits of an integer, after its sign. -/
def decimal (n : Int) : List Char := n.repr.toList

/-- A character of a number. -/
def ofNumber (c : Char) : Bool := c.isDigit || c = '-'

theorem mem_decimal {n : Int} {c : Char} (h : c ∈ decimal n) : ofNumber c = true := by
  have hnat : ∀ m : Nat, c ∈ m.repr.toList → ofNumber c = true := by
    intro m hm
    rw [Nat.repr_eq_ofList_toDigits, String.toList_ofList] at hm
    have hdigit := Nat.isDigit_of_mem_toDigits (by decide) (by decide) hm
    unfold ofNumber
    rw [hdigit]
    rfl
  unfold decimal Int.repr at h
  cases n with
  | ofNat m => exact hnat m h
  | negSucc m =>
    have happend : c ∈ '-' :: (m + 1).repr.toList := by simpa using h
    rcases List.mem_cons.mp happend with rfl | hm
    · rfl
    · exact hnat _ hm

theorem decimal_ne_nil (n : Int) : decimal n ≠ [] := by
  intro h
  have hempty : n.repr = "" := String.toList_injective h
  have hlen := congrArg String.length hempty
  unfold Int.repr at hlen
  cases n with
  | ofNat m => simp at hlen
  | negSucc m => simp at hlen

/-- What comes after a value: nothing, or what no number holds. -/
def Ends (r : List Char) : Prop := ∀ c ∈ r.head?, ofNumber c = false

theorem takeWhile_decimal (n : Int) {r : List Char} (h : Ends r) :
    (decimal n ++ r).takeWhile ofNumber = decimal n := by
  rw [List.takeWhile_append_of_pos fun c hc => mem_decimal hc]
  cases r with
  | nil => simp
  | cons c r =>
    have hc : ofNumber c = false := h c rfl
    simp [hc]

/-- **A number is split off what follows it**, where that starts with no character of a number. -/
theorem decimal_append_inj {n m : Int} {r r' : List Char} (hr : Ends r) (hr' : Ends r')
    (h : decimal n ++ r = decimal m ++ r') : n = m ∧ r = r' := by
  have hread := congrArg (List.takeWhile ofNumber) h
  rw [takeWhile_decimal n hr, takeWhile_decimal m hr'] at hread
  refine ⟨Int.repr_injective (String.toList_injective hread), ?_⟩
  rw [hread] at h
  exact List.append_cancel_left h

/-! ## Rendering -/

/-- Pieces with commas between them. -/
def join : List (List Char) → List Char
  | [] => []
  | [piece] => piece
  | piece :: next :: rest => piece ++ ',' :: join (next :: rest)

/-- An entry of an object: its key, and what its value renders as. -/
def entry (key : String) (value : List Char) : List Char := quote key ++ ':' :: value

mutual

/-- A value without whitespace, every object in its own order. -/
def render : Value F → List Char
  | .null => ['n', 'u', 'l', 'l']
  | .bool true => ['t', 'r', 'u', 'e']
  | .bool false => ['f', 'a', 'l', 's', 'e']
  | .num n => decimal n
  | .str s => quote s
  | .arr items => '[' :: (join (renderItems items) ++ [']'])
  | .obj _ entries => '{' :: (join (renderEntries entries) ++ ['}'])

def renderItems : List (Value F) → List (List Char)
  | [] => []
  | v :: items => render v :: renderItems items

def renderEntries : List (String × Value F) → List (List Char)
  | [] => []
  | (key, v) :: entries => entry key (render v) :: renderEntries entries

end

theorem renderItems_eq (items : List (Value F)) : renderItems items = items.map render := by
  induction items with
  | nil => rfl
  | cons v items ih => rw [renderItems, ih]; rfl

theorem renderEntries_eq (entries : List (String × Value F)) :
    renderEntries entries = entries.map fun e => entry e.1 (render e.2) := by
  induction entries with
  | nil => rfl
  | cons e entries ih => rw [renderEntries, ih]; rfl

/-- What the first character of a value says of it. -/
def kindOf (c : Char) : Nat :=
  if c = 'n' then 0 else if c = 't' then 1 else if c = 'f' then 2 else if c = '"' then 4
  else if c = '[' then 5 else if c = '{' then 6 else if ofNumber c then 3 else 7

/-- The kind a value's first character says. -/
def Value.kind : Value F → Nat
  | .null => 0
  | .bool true => 1
  | .bool false => 2
  | .num _ => 3
  | .str _ => 4
  | .arr _ => 5
  | .obj _ _ => 6

theorem Value.kind_lt (v : Value F) : v.kind < 7 := by
  cases v with
  | bool b => cases b <;> simp [kind]
  | _ => simp [kind]

theorem kindOf_number {c : Char} (h : ofNumber c = true) : kindOf c = 3 := by
  unfold kindOf
  repeat' split
  all_goals first | rfl | (subst_vars; revert h; decide)

/-- **A value starts with a character that says its kind.** -/
theorem render_head (v : Value F) : ∃ c rest, render v = c :: rest ∧ kindOf c = v.kind := by
  cases v with
  | null => exact ⟨_, _, rfl, rfl⟩
  | bool b => cases b <;> exact ⟨_, _, rfl, rfl⟩
  | num n =>
    obtain ⟨c, rest, hcons⟩ := List.exists_cons_of_ne_nil (decimal_ne_nil n)
    refine ⟨c, rest, hcons, kindOf_number (mem_decimal (n := n) ?_)⟩
    rw [hcons]
    exact List.mem_cons_self
  | str s => exact ⟨_, _, rfl, rfl⟩
  | arr items => exact ⟨_, _, rfl, rfl⟩
  | obj mark entries => exact ⟨_, _, rfl, rfl⟩

theorem kind_eq {v w : Value F} {r r' : List Char} (h : render v ++ r = render w ++ r') :
    v.kind = w.kind := by
  obtain ⟨c, rest, hv, hkind⟩ := render_head v
  obtain ⟨c', rest', hw, hkind'⟩ := render_head w
  rw [hv, hw, List.cons_append, List.cons_append] at h
  rw [← hkind, ← hkind', (List.cons_eq_cons.mp h).1]

/-- What a piece can be split off: whatever starts with no character of a number. -/
def Splits {α : Type} (f : α → List Char) (a : α) : Prop :=
  ∀ (b : α) (r r' : List Char), Ends r → Ends r' → f a ++ r = f b ++ r' → a = b ∧ r = r'

theorem ends_cons {c : Char} (h : ofNumber c = false) (r : List Char) : Ends (c :: r) := by
  intro d hd
  cases hd
  exact h

/-- **Joined pieces are split off** at the character that closes them, where each can be split off
    and starts neither with that character nor with nothing at all. -/
theorem join_append_inj {α : Type} {f : α → List Char} {close : Char}
    (hclose : ofNumber close = false) (hcomma : close ≠ ',')
    (hstart : ∀ a rest r, f a ++ rest ≠ close :: r) :
    ∀ {as bs : List α} {r r' : List Char}, (∀ a ∈ as, Splits f a) →
      join (as.map f) ++ close :: r = join (bs.map f) ++ close :: r' → as = bs ∧ r = r'
  | [], [], r, r', _, h => ⟨rfl, (List.cons_eq_cons.mp h).2⟩
  | [], b :: bs, r, r', _, h => by
    cases bs with
    | nil => exact absurd h.symm (hstart b _ r)
    | cons c bs =>
      simp only [List.map_cons, join, List.append_assoc] at h
      exact absurd h.symm (hstart b _ r)
  | a :: as, [], r, r', _, h => by
    cases as with
    | nil => exact absurd h (hstart a _ r')
    | cons c as =>
      simp only [List.map_cons, join, List.append_assoc] at h
      exact absurd h (hstart a _ r')
  | [a], [b], r, r', hsplit, h => by
    obtain ⟨rfl, hr⟩ := hsplit a List.mem_cons_self b _ _ (ends_cons hclose r)
      (ends_cons hclose r') h
    exact ⟨rfl, (List.cons_eq_cons.mp hr).2⟩
  | [a], b :: c :: bs, r, r', hsplit, h => by
    simp only [List.map_cons, List.map_nil, join, List.append_assoc, List.cons_append] at h
    obtain ⟨-, hr⟩ := hsplit a List.mem_cons_self b _ _ (ends_cons hclose r)
      (ends_cons rfl _) h
    exact absurd (List.cons_eq_cons.mp hr).1 hcomma
  | a :: c :: as, [b], r, r', hsplit, h => by
    simp only [List.map_cons, List.map_nil, join, List.append_assoc, List.cons_append] at h
    obtain ⟨-, hr⟩ := hsplit a List.mem_cons_self b _ _ (ends_cons rfl _)
      (ends_cons hclose r') h
    exact absurd (List.cons_eq_cons.mp hr).1.symm hcomma
  | a :: c :: as, b :: d :: bs, r, r', hsplit, h => by
    simp only [List.map_cons, join, List.append_assoc, List.cons_append] at h
    obtain ⟨rfl, hr⟩ := hsplit a List.mem_cons_self b _ _ (ends_cons rfl _) (ends_cons rfl _) h
    have hrest := (List.cons_eq_cons.mp hr).2
    rw [← List.map_cons, ← List.map_cons] at hrest
    obtain ⟨hbs, hr'⟩ := join_append_inj hclose hcomma hstart
      (fun x hx => hsplit x (List.mem_cons_of_mem a hx)) hrest
    exact ⟨by rw [hbs], hr'⟩

/-- **A value is split off what follows it**, where that starts with no character of a number. -/
theorem render_append_inj (v : Value Unit) : Splits render v := by
  refine Value.induct ?_ ?_ ?_ ?_ ?_ ?_ v
  · intro w r r' hr hr' h
    have hkind := kind_eq h
    cases w with
    | null => exact ⟨rfl, List.append_cancel_left h⟩
    | bool b => cases b <;> cases hkind
    | _ => cases hkind
  · intro b w r r' hr hr' h
    have hkind := kind_eq h
    cases w with
    | bool b' =>
      cases b <;> cases b' <;>
        first | exact ⟨rfl, List.append_cancel_left h⟩ | cases hkind
    | _ => cases b <;> cases hkind
  · intro n w r r' hr hr' h
    have hkind := kind_eq h
    cases w with
    | num m =>
      obtain ⟨rfl, hrest⟩ := decimal_append_inj hr hr' h
      exact ⟨rfl, hrest⟩
    | bool b => cases b <;> cases hkind
    | _ => cases hkind
  · intro s w r r' hr hr' h
    have hkind := kind_eq h
    cases w with
    | str s' =>
      obtain ⟨rfl, hrest⟩ := quote_append_inj h
      exact ⟨rfl, hrest⟩
    | bool b => cases b <;> cases hkind
    | _ => cases hkind
  · intro items ih w r r' hr hr' h
    have hkind := kind_eq h
    cases w with
    | arr items' =>
      have htail := (List.cons_eq_cons.mp h).2
      simp only [List.append_eq, List.append_assoc, List.singleton_append, renderItems_eq] at htail
      have hstart : ∀ (a : Value Unit) (rest r : List Char), render a ++ rest ≠ ']' :: r := by
        intro a rest r heq
        obtain ⟨c, more, hcons, hkindc⟩ := render_head a
        rw [hcons] at heq
        have hlt := a.kind_lt
        rw [← hkindc, (List.cons_eq_cons.mp heq).1] at hlt
        exact absurd hlt (by decide)
      obtain ⟨rfl, hrest⟩ := join_append_inj rfl (by decide) hstart ih htail
      exact ⟨rfl, hrest⟩
    | bool b => cases b <;> cases hkind
    | _ => cases hkind
  · intro mark entries ih w r r' hr hr' h
    have hkind := kind_eq h
    cases w with
    | obj mark' entries' =>
      have htail := (List.cons_eq_cons.mp h).2
      simp only [List.append_eq, List.append_assoc, List.singleton_append, renderEntries_eq] at htail
      have hsplit : ∀ e ∈ entries, Splits (fun e : String × Value Unit => entry e.1 (render e.2)) e := by
        rintro ⟨key, v⟩ he ⟨key', v'⟩ r r' hr hr' heq
        simp only [entry, List.append_assoc, List.cons_append] at heq
        obtain ⟨rfl, hrest⟩ := quote_append_inj heq
        obtain ⟨rfl, hrest'⟩ := ih _ he v' r r' hr hr' (List.cons_eq_cons.mp hrest).2
        exact ⟨rfl, hrest'⟩
      obtain ⟨rfl, hrest⟩ := join_append_inj rfl (by decide)
        (fun e rest r heq => absurd (List.cons_eq_cons.mp heq).1 (by decide)) hsplit htail
      exact ⟨rfl, hrest⟩
    | bool b => cases b <;> cases hkind
    | _ => cases hkind

/-! ## Sorting -/

section Sorting

variable {β γ : Type}

/-- Entries by their keys. -/
def ByKey (a b : String × β) : Prop := a.1 ≤ b.1

instance : DecidableRel (ByKey (β := β)) := fun a b => inferInstanceAs (Decidable (a.1 ≤ b.1))

instance : IsTrans (String × β) ByKey := ⟨fun _ _ _ hab hbc => le_trans hab hbc⟩

instance : Std.Total (ByKey (β := β)) := ⟨fun a b => le_total a.1 b.1⟩

/-- Entries in the order of their keys. -/
def sortKeys (entries : List (String × β)) : List (String × β) := entries.insertionSort ByKey

theorem sortKeys_map (f : β → γ) (entries : List (String × β)) :
    sortKeys (entries.map fun e => (e.1, f e.2)) = (sortKeys entries).map fun e => (e.1, f e.2) :=
  (List.map_insertionSort ByKey ByKey (fun e : String × β => (e.1, f e.2)) entries
    fun _ _ _ _ => Iff.rfl).symm

/-- **Entries under distinct keys sort alike in whatever order they come.** -/
theorem sortKeys_perm {entries entries' : List (String × β)} (hperm : entries.Perm entries')
    (hkeys : (entries.map (·.1)).Nodup) : sortKeys entries = sortKeys entries' := by
  have hsorted : (sortKeys entries).Perm (sortKeys entries') :=
    ((List.perm_insertionSort _ entries).trans hperm).trans (List.perm_insertionSort _ entries').symm
  refine hsorted.eq_of_pairwise ?_ (List.pairwise_insertionSort _ entries)
    (List.pairwise_insertionSort _ entries')
  intro a b ha hb hab hba
  have hmem : a ∈ entries := (List.mem_insertionSort _).mp ha
  have hmem' : b ∈ entries := hperm.mem_iff.mpr ((List.mem_insertionSort _).mp hb)
  exact List.inj_on_of_nodup_map hkeys hmem hmem' (le_antisymm hab hba)

end Sorting

variable {G : Type} (sorts : F → Bool) (remark : F → G)

mutual

/-- The value with the entries of each object `sorts` chooses in the order of their keys, and every
    object marked anew. -/
def sorted : Value F → Value G
  | .null => .null
  | .bool b => .bool b
  | .num n => .num n
  | .str s => .str s
  | .arr items => .arr (sortedItems items)
  | .obj mark entries =>
    .obj (remark mark) (if sorts mark then sortKeys (sortedEntries entries) else sortedEntries entries)

def sortedItems : List (Value F) → List (Value G)
  | [] => []
  | v :: items => sorted v :: sortedItems items

def sortedEntries : List (String × Value F) → List (String × Value G)
  | [] => []
  | (key, v) :: entries => (key, sorted v) :: sortedEntries entries

end

theorem sortedItems_eq (items : List (Value F)) :
    sortedItems sorts remark items = items.map (sorted sorts remark) := by
  induction items with
  | nil => rfl
  | cons v items ih => rw [sortedItems, ih]; rfl

theorem sortedEntries_eq (entries : List (String × Value F)) :
    sortedEntries sorts remark entries = entries.map fun e => (e.1, sorted sorts remark e.2) := by
  induction entries with
  | nil => rfl
  | cons e entries ih => rw [sortedEntries, ih]; rfl

/-! ## The canonical rendering -/

mutual

/-- A value without whitespace, the keys of every object sorted. -/
def canonical : Value F → List Char
  | .null => ['n', 'u', 'l', 'l']
  | .bool true => ['t', 'r', 'u', 'e']
  | .bool false => ['f', 'a', 'l', 's', 'e']
  | .num n => decimal n
  | .str s => quote s
  | .arr items => '[' :: (join (canonicalItems items) ++ [']'])
  | .obj _ entries =>
    '{' :: (join ((sortKeys (canonicalEntries entries)).map fun e => entry e.1 e.2) ++ ['}'])

def canonicalItems : List (Value F) → List (List Char)
  | [] => []
  | v :: items => canonical v :: canonicalItems items

def canonicalEntries : List (String × Value F) → List (String × List Char)
  | [] => []
  | (key, v) :: entries => (key, canonical v) :: canonicalEntries entries

end

theorem canonicalItems_eq (items : List (Value F)) : canonicalItems items = items.map canonical := by
  induction items with
  | nil => rfl
  | cons v items ih => rw [canonicalItems, ih]; rfl

theorem canonicalEntries_eq (entries : List (String × Value F)) :
    canonicalEntries entries = entries.map fun e => (e.1, canonical e.2) := by
  induction entries with
  | nil => rfl
  | cons e entries ih => rw [canonicalEntries, ih]; rfl

/-- Every object sorted, and no mark kept. -/
def unordered (v : Value F) : Value Unit := sorted (fun _ => true) (fun _ => ()) v

/-- The canonical rendering writes the value with every object sorted. -/
theorem canonical_eq (v : Value F) : canonical v = render (unordered v) := by
  refine Value.induct (P := fun v => canonical v = render (unordered v)) ?_ ?_ ?_ ?_ ?_ ?_ v
  · rfl
  · intro b
    cases b <;> rfl
  · intro n
    rfl
  · intro s
    rfl
  · intro items ih
    show '[' :: (join (canonicalItems items) ++ [']']) =
      '[' :: (join (renderItems (sortedItems _ _ items)) ++ [']'])
    rw [canonicalItems_eq, sortedItems_eq, renderItems_eq, List.map_map]
    rw [List.map_congr_left (g := render ∘ sorted _ _) ih]
  · intro mark entries ih
    show '{' :: (join ((sortKeys (canonicalEntries entries)).map fun e => entry e.1 e.2) ++ ['}']) =
      '{' :: (join (renderEntries (sortKeys (sortedEntries _ _ entries))) ++ ['}'])
    have hentries : canonicalEntries entries =
        (sortedEntries (fun _ => true) (fun _ => ()) entries).map fun e => (e.1, render e.2) := by
      rw [canonicalEntries_eq, sortedEntries_eq, List.map_map]
      exact List.map_congr_left fun e he => congrArg (e.1, ·) (ih e he)
    rw [hentries, sortKeys_map render, renderEntries_eq, List.map_map]
    rfl

/-- **Two values write the same exactly when they are the same once sorted.** -/
theorem canonical_inj {v : Value F} {w : Value G} :
    canonical v = canonical w ↔ unordered v = unordered w := by
  rw [canonical_eq, canonical_eq]
  constructor
  · intro h
    have hends : Ends [] := fun c hc => nomatch hc
    exact (render_append_inj (unordered v) _ [] [] hends hends (congrArg (· ++ []) h)).1
  · exact congrArg render

/-! ## The order an object iterates in -/

mutual

/-- No object holds a key twice. -/
def distinct : Value F → Bool
  | .arr items => distinctItems items
  | .obj _ entries => decide (entries.map (·.1)).Nodup && distinctEntries entries
  | _ => true

def distinctItems : List (Value F) → Bool
  | [] => true
  | v :: items => distinct v && distinctItems items

def distinctEntries : List (String × Value F) → Bool
  | [] => true
  | (_, v) :: entries => distinct v && distinctEntries entries

end

theorem distinct_arr {items : List (Value F)} :
    distinct (.arr items) = true ↔ ∀ v ∈ items, distinct v = true := by
  show distinctItems items = true ↔ _
  induction items with
  | nil => simp [distinctItems]
  | cons v items ih => simp [distinctItems, ih]

theorem distinctEntries_iff {entries : List (String × Value F)} :
    distinctEntries entries = true ↔ ∀ e ∈ entries, distinct e.2 = true := by
  induction entries with
  | nil => simp [distinctEntries]
  | cons e entries ih =>
    rw [distinctEntries, Bool.and_eq_true, ih, List.forall_mem_cons]

theorem distinct_obj {mark : F} {entries : List (String × Value F)} :
    distinct (.obj mark entries) = true ↔
      (entries.map (·.1)).Nodup ∧ ∀ e ∈ entries, distinct e.2 = true := by
  rw [distinct, Bool.and_eq_true, decide_eq_true_eq, distinctEntries_iff]

/-- An order of iteration: how the object at each place of a value lists its entries. -/
abbrev Iteration := List Nat → List (String × Value Unit) → List (String × Value Unit)

/-- An order of iteration lists what the object holds, and nothing else. -/
def Iteration.Fair (order : Iteration) : Prop := ∀ place entries, (order place entries).Perm entries

section Iterated

variable (order : Iteration)

mutual

/-- The plain value as it is iterated: the objects `sorts` chooses list their entries in some order
    of their own, the others in the order they hold. -/
def iterated (place : List Nat) : Value F → Value Unit
  | .null => .null
  | .bool b => .bool b
  | .num n => .num n
  | .str s => .str s
  | .arr items => .arr (iteratedItems (0 :: place) items)
  | .obj mark entries =>
    let listed := iteratedEntries (0 :: place) entries
    .obj () (if sorts mark then order place listed else listed)

def iteratedItems (place : List Nat) : List (Value F) → List (Value Unit)
  | [] => []
  | v :: items => iterated (0 :: place) v :: iteratedItems (1 :: place) items

def iteratedEntries (place : List Nat) : List (String × Value F) → List (String × Value Unit)
  | [] => []
  | (key, v) :: entries =>
    (key, iterated (0 :: place) v) :: iteratedEntries (1 :: place) entries

end

variable {order}

/-- The keys of an object are what they were, in whatever order they are listed. -/
theorem iteratedEntries_keys (place : List Nat) (entries : List (String × Value F)) :
    (iteratedEntries sorts order place entries).map (·.1) = entries.map (·.1) := by
  induction entries generalizing place with
  | nil => rfl
  | cons e entries ih => exact congrArg (e.1 :: ·) (ih (1 :: place))

/-- **The order of iteration is lost** once every object is sorted. -/
theorem unordered_iterated (hfair : order.Fair) (v : Value F) :
    distinct v = true → ∀ place, unordered (iterated sorts order place v) = unordered v := by
  refine Value.induct (P := fun v => distinct v = true → ∀ place,
    unordered (iterated sorts order place v) = unordered v) ?_ ?_ ?_ ?_ ?_ ?_ v
  · intro _ _
    rfl
  · intro b _ _
    rfl
  · intro n _ _
    rfl
  · intro s _ _
    rfl
  · intro items ih hdistinct place
    rw [distinct_arr] at hdistinct
    have hitems : ∀ (items' : List (Value F)), (∀ v ∈ items', v ∈ items) → ∀ place,
        sortedItems (fun _ => true) (fun _ => ()) (iteratedItems sorts order place items') =
          sortedItems (fun _ => true) (fun _ => ()) items' := by
      intro items' hsub
      induction items' with
      | nil => exact fun _ => rfl
      | cons v items' ihitems =>
        intro place
        have hv := hsub v List.mem_cons_self
        show _ :: _ = _ :: _
        rw [ihitems (fun w hw => hsub w (List.mem_cons_of_mem v hw))]
        exact congrArg (· :: _) (ih v hv (hdistinct v hv) _)
    exact congrArg Value.arr (hitems items (fun _ h => h) _)
  · intro mark entries ih hdistinct place
    obtain ⟨hkeys, hvalues⟩ := distinct_obj.mp hdistinct
    have hentries : ∀ (entries' : List (String × Value F)), (∀ e ∈ entries', e ∈ entries) →
        ∀ place, sortedEntries (fun _ => true) (fun _ => ())
            (iteratedEntries sorts order place entries') =
          sortedEntries (fun _ => true) (fun _ => ()) entries' := by
      intro entries' hsub
      induction entries' with
      | nil => exact fun _ => rfl
      | cons e entries' ihentries =>
        intro place
        have he := hsub e List.mem_cons_self
        show (_, _) :: _ = (_, _) :: _
        rw [ihentries (fun w hw => hsub w (List.mem_cons_of_mem e hw))]
        exact congrArg (fun v => (e.1, v) :: _) (ih e he (hvalues e he) _)
    -- a list of the same entries in another order sorts to the same
    have hlisted : ∀ listed : List (String × Value Unit),
        listed.Perm (iteratedEntries sorts order (0 :: place) entries) →
        sortKeys (sortedEntries (fun _ => true) (fun _ => ()) listed) =
          sortKeys (sortedEntries (fun _ => true) (fun _ => ()) entries) := by
      intro listed hperm
      rw [← hentries entries (fun _ h => h) (0 :: place)]
      refine sortKeys_perm ?_ ?_
      · rw [sortedEntries_eq, sortedEntries_eq]
        exact hperm.map _
      · rw [sortedEntries_eq, List.map_map]
        refine (hperm.map (·.1)).nodup_iff.mpr ?_
        rw [iteratedEntries_keys]
        exact hkeys
    have hperm : (if sorts mark then order place (iteratedEntries sorts order (0 :: place) entries)
        else iteratedEntries sorts order (0 :: place) entries).Perm
          (iteratedEntries sorts order (0 :: place) entries) := by
      split
      · exact hfair place _
      · exact List.Perm.refl _
    exact congrArg (Value.obj ()) (hlisted _ hperm)

end Iterated

/-- **What a value writes depends on no order of iteration.** -/
theorem canonical_iterated {order : Iteration} (hfair : order.Fair) {v : Value F}
    (hdistinct : distinct v = true) (place : List Nat) :
    canonical (iterated sorts order place v) = canonical v :=
  canonical_inj.mpr (unordered_iterated sorts hfair v hdistinct place)

end Json
