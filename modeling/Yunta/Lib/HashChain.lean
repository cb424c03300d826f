/-
  Chains of links, and what their last link says about the whole chain.

  A link is computed from the link before it and the row it stands for.  `tip` is the last link of
  a list of rows, from an anchor, and `linked` the pairs a chain computes its links from.

  Where no two of the pairs computed give one link unless they agree, the last link and the number
  of rows determine the anchor and every row: the agreement is carried from the tip back to the
  anchor, one link at a time (`rows_of_tip`).  Agreement on rows is any relation, so that a link
  blind to part of a row determines the rest of it.
-/
import Mathlib.Data.List.Forall2

set_option linter.unusedVariables false

namespace HashChain

variable {η ρ : Type} (link : η → ρ → η)

/-- The last link of `rows`, from `anchor`. -/
def tip (anchor : η) (rows : List ρ) : η := rows.foldl link anchor

/-- Every pair a chain computes a link from: the link before, and the row. -/
def linked : η → List ρ → List (η × ρ)
  | _, [] => []
  | anchor, row :: rest => (anchor, row) :: linked (link anchor row) rest

/-- Of two lists of pairs, those that give one link agree. -/
def Separates (agree : ρ → ρ → Prop) (ps qs : List (η × ρ)) : Prop :=
  ∀ p ∈ ps, ∀ q ∈ qs, link p.1 p.2 = link q.1 q.2 → p.1 = q.1 ∧ agree p.2 q.2

variable {link}

/-- **The tip of a chain says what its rows are**, among chains of its length. -/
theorem rows_of_tip {agree : ρ → ρ → Prop} :
    ∀ {a b : η} {rows rows' : List ρ}, rows.length = rows'.length →
      Separates link agree (linked link a rows) (linked link b rows') →
      tip link a rows = tip link b rows' → a = b ∧ List.Forall₂ agree rows rows'
  | a, b, [], [], _, _, htip => ⟨htip, .nil⟩
  | a, b, row :: rest, row' :: rest', hlen, hsep, htip => by
    -- the rest of the chain pins the link its anchor is, and that link pins the first row
    have hrest : link a row = link b row' ∧ List.Forall₂ agree rest rest' :=
      rows_of_tip (Nat.succ.inj hlen)
        (fun p hp q hq => hsep p (List.mem_cons_of_mem _ hp) q (List.mem_cons_of_mem _ hq)) htip
    obtain ⟨hanchor, hrow⟩ :=
      hsep (a, row) (List.mem_cons_self ..) (b, row') (List.mem_cons_self ..) hrest.1
    exact ⟨hanchor, .cons hrow hrest.2⟩

end HashChain
