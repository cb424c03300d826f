/-
  What a run's sessions leave one another of its token cap.

  1. **The run** — `Sharing` is what a run has spent and the nodes it still owes.  A session runs the
     first of them and spends at most its budget, `session_token_budget` of the cap, what was spent
     so far and the nodes still owed.

  2. **What is asked** — `Shares`: while a node is owed after it, a session's budget is less than
     what remains; under a cap of the square of the nodes every session has one; and the cap holds.

  3. **When it holds** — every node but the last may spend its share of the whole cap, and the run
     shares whatever they spend exactly when those shares leave something (`sharing_iff`): the share
     of the cap grows as the nodes still owed fall, while what remains of it does not.
-/
import Mathlib.Algebra.BigOperators.Intervals
import Mathlib.Algebra.Order.BigOperators.Group.Finset
import Mathlib.Order.Interval.Finset.Nat
import Yunta.Run.Budget

set_option linter.unusedVariables false

namespace Yunta.Budget

open Machine Finset

/-! ## The run -/

/-- What a run has spent, and the nodes it reaches that are short of a terminal, in order. -/
structure Sharing where
  spent : Nat := 0
  owed : List NodeId
  deriving DecidableEq

namespace Sharing

/-- How many of the nodes this run reaches are short of a terminal. -/
def nodesStillOwed (s : Sharing) : Nat := s.owed.length

/-- The budget of the session that runs next. -/
def budget (cap : Nat) (s : Sharing) : Nat := sessionTokenBudget cap s.spent s.nodesStillOwed

/-- The session of the next node spends `tokens`, within its budget, and finishes the node. -/
def step (cap : Nat) (s : Sharing) (tokens : Nat) : Option Sharing :=
  match s.owed with
  | [] => none
  | _ :: rest => if tokens ≤ s.budget cap then some ⟨s.spent + tokens, rest⟩ else none

/-- Nothing spent, and every node owed. -/
def start (nodes : List NodeId) : Sharing := ⟨0, nodes⟩

end Sharing

/-- No session of a run of `nodes` starves a later one. -/
structure Shares (cap : Nat) (nodes : List NodeId) (s : Sharing) : Prop where
  /-- While a node is owed after it, the session cannot spend all that remains. -/
  leaves : 2 ≤ s.nodesStillOwed → s.budget cap < cap - s.spent
  /-- Nor is it left without a budget itself. -/
  positive : nodes.length ^ 2 ≤ cap → s.owed ≠ [] → 0 < s.budget cap
  within : s.spent ≤ cap

/-! ## What a session leaves -/

variable {cap : Nat}

/-- What every node but the last may spend, when each spends its whole share. -/
def shareSum (cap n : Nat) : Nat := ∑ k ∈ Icc 2 n, cap / k

/-- The shares of all nodes but the last leave something of the cap. -/
def Lasts (cap n : Nat) : Prop := n ≤ 1 ∨ shareSum cap n < cap

instance (cap n : Nat) : Decidable (Lasts cap n) := inferInstanceAs (Decidable (_ ∨ _))

theorem shareSum_succ (cap n : Nat) (hn : 1 ≤ n) :
    shareSum cap (n + 1) = shareSum cap n + cap / (n + 1) :=
  sum_Icc_succ_top (by omega) _

theorem shareSum_one (cap : Nat) : shareSum cap 1 = 0 := rfl

theorem Sharing.step_eq_some {s s' : Sharing} {tokens : Nat} (h : s.step cap tokens = some s') :
    ∃ node rest, s.owed = node :: rest ∧ tokens ≤ s.budget cap ∧
      s' = ⟨s.spent + tokens, rest⟩ := by
  unfold Sharing.step at h
  split at h
  · cases h
  · next node rest howed =>
    split at h
    · next hle => exact ⟨node, rest, howed, hle, (Option.some.inj h).symm⟩
    · cases h

/-- A budget is a share of the cap, and no more than what remains. -/
theorem Sharing.budget_cons (spent : Nat) (node : NodeId) (rest : List NodeId) :
    Sharing.budget cap ⟨spent, node :: rest⟩ = min (cap - spent) (cap / (rest.length + 1)) := by
  show min (cap - spent) (cap / max (rest.length + 1) 1) = _
  rw [Nat.max_eq_left (by omega)]

/-- **A session keeps the run within its cap**, whatever it leaves to the others. -/
theorem Sharing.step_within {s s' : Sharing} {tokens : Nat} (hspent : s.spent ≤ cap)
    (h : s.step cap tokens = some s') : s'.spent ≤ cap ∧ s'.owed.length ≤ s.owed.length := by
  obtain ⟨spent, owed⟩ := s
  obtain ⟨node, rest, rfl, hle, rfl⟩ := Sharing.step_eq_some h
  rw [Sharing.budget_cons] at hle
  have hremains : spent ≤ cap := hspent
  show spent + tokens ≤ cap ∧ rest.length ≤ rest.length + 1
  omega

/-- What is left beside the shares of the nodes still owed but the last. -/
def Sharing.Spare (cap : Nat) (s : Sharing) : Prop :=
  s.owed ≠ [] → s.spent + shareSum cap s.owed.length < cap

/-- **A session takes its own share at most**, so what was spare stays spare. -/
theorem Sharing.step_spare {s s' : Sharing} {tokens : Nat} (hspare : s.Spare cap)
    (h : s.step cap tokens = some s') : s'.Spare cap := by
  obtain ⟨spent, owed⟩ := s
  obtain ⟨node, rest, rfl, hle, rfl⟩ := Sharing.step_eq_some h
  intro hrest
  rw [Sharing.budget_cons] at hle
  have hsum : shareSum cap (rest.length + 1) = shareSum cap rest.length + cap / (rest.length + 1) :=
    shareSum_succ cap _ (List.length_pos_iff.mpr hrest)
  have hbefore : spent + shareSum cap (rest.length + 1) < cap := hspare (List.cons_ne_nil node rest)
  show spent + tokens + shareSum cap rest.length < cap
  omega

/-- A run with something to spare starves nobody. -/
theorem Sharing.Spare.shares {s : Sharing} {nodes : List NodeId} (hspare : s.Spare cap)
    (hspent : s.spent ≤ cap) (howed : s.owed.length ≤ nodes.length) : Shares cap nodes s := by
  obtain ⟨spent, owed⟩ := s
  cases owed with
  | nil => exact ⟨fun h => absurd h (by show ¬ 2 ≤ 0; omega), fun _ h => absurd rfl h, hspent⟩
  | cons node rest =>
    have hspare : spent + shareSum cap (rest.length + 1) < cap := hspare (List.cons_ne_nil node rest)
    refine ⟨fun hlater => ?_, fun hsquare _ => ?_, hspent⟩
    · have hlater : 2 ≤ rest.length + 1 := hlater
      have hsum := shareSum_succ cap rest.length (by omega)
      rw [Sharing.budget_cons]
      show _ < cap - spent
      omega
    · have howed : rest.length + 1 ≤ nodes.length := howed
      -- the share of a cap of the square of the nodes is a token for each of them
      have hcap : (rest.length + 1) * (rest.length + 1) ≤ cap :=
        calc (rest.length + 1) * (rest.length + 1)
            ≤ nodes.length * nodes.length := Nat.mul_le_mul howed howed
          _ = nodes.length ^ 2 := (Nat.pow_two _).symm
          _ ≤ cap := hsquare
      have hshare : rest.length + 1 ≤ cap / (rest.length + 1) :=
        (Nat.le_div_iff_mul_le (by omega)).mpr hcap
      rw [Sharing.budget_cons]
      omega

/-! ## A run that starves nobody -/

/-- What each session leaves, over a run. -/
theorem reached_within {nodes : List NodeId} {s : Sharing}
    (h : Reached (Sharing.step cap) Free (.start nodes) s) :
    s.spent ≤ cap ∧ s.owed.length ≤ nodes.length := by
  have hstart : 0 ≤ cap ∧ nodes.length ≤ nodes.length := ⟨Nat.zero_le _, Nat.le_refl _⟩
  refine Reached.invariant (P := fun s => s.spent ≤ cap ∧ s.owed.length ≤ nodes.length) h hstart ?_
  intro s tokens s' hs _ htaken
  obtain ⟨hspent, hlength⟩ := Sharing.step_within hs.1 htaken
  exact ⟨hspent, hlength.trans hs.2⟩

/-- **Shares that last starve nobody.** -/
theorem shares_of_lasts {nodes : List NodeId} (hlasts : Lasts cap nodes.length) {s : Sharing}
    (h : Reached (Sharing.step cap) Free (.start nodes) s) : Shares cap nodes s := by
  obtain ⟨hspent, howed⟩ := reached_within h
  by_cases hstart : (Sharing.start nodes).Spare cap
  · have hspare : s.Spare cap :=
      h.invariant hstart fun s tokens s' hs _ htaken => Sharing.step_spare hs htaken
    exact hspare.shares hspent howed
  · -- only a cap of nothing spares a single node nothing
    obtain ⟨hne, hnone⟩ : nodes ≠ [] ∧ ¬ 0 + shareSum cap nodes.length < cap := by
      simpa [Sharing.Spare, Sharing.start] using hstart
    have hone : nodes.length = 1 := by
      have := List.length_pos_iff.mpr hne
      rcases hlasts with h | h <;> omega
    rw [hone, shareSum_one] at hnone
    refine ⟨fun hlater => ?_, fun hsquare _ => ?_, hspent⟩
    · have hlater : 2 ≤ s.owed.length := hlater
      omega
    · rw [hone] at hsquare
      omega

/-- **Shares that do not last starve somebody**: each session spends its whole budget. -/
theorem lasts_of_leaves (nodes : List NodeId) (spent : Nat)
    (h : ∀ s, Reached (Sharing.step cap) Free ⟨spent, nodes⟩ s →
      2 ≤ s.nodesStillOwed → s.budget cap < cap - s.spent) :
    nodes.length ≤ 1 ∨ spent + shareSum cap nodes.length < cap := by
  induction nodes generalizing spent with
  | nil => exact .inl (Nat.zero_le 1)
  | cons node rest ih =>
    by_cases hrest : rest.length = 0
    · exact .inl (by show rest.length + 1 ≤ 1; omega)
    have hfirst := h _ .refl (by show 2 ≤ rest.length + 1; omega)
    rw [Sharing.budget_cons] at hfirst
    have hfirst : min (cap - spent) (cap / (rest.length + 1)) < cap - spent := hfirst
    have hstep : Sharing.step cap ⟨spent, node :: rest⟩ (cap / (rest.length + 1)) =
        some ⟨spent + cap / (rest.length + 1), rest⟩ := by
      refine if_pos ?_
      rw [Sharing.budget_cons]
      omega
    have hlater := ih (spent + cap / (rest.length + 1)) fun s hs =>
      h s ((Reached.snoc _ .refl trivial hstep).trans hs)
    have hsum := shareSum_succ cap rest.length (by omega)
    right
    show spent + shareSum cap (rest.length + 1) < cap
    rcases hlater with hone | hlater
    · have hone : rest.length = 1 := by omega
      rw [hsum, hone, shareSum_one]
      rw [hone] at hfirst
      omega
    · omega

/-- **No session starves a later one exactly when the shares of all nodes but the last leave
    something of the cap**, in every run of sessions over every cap and every list of nodes. -/
theorem sharing_iff (cap : Nat) (nodes : List NodeId) :
    (∀ s, Reached (Sharing.step cap) Free (.start nodes) s → Shares cap nodes s) ↔
      nodes.length ≤ 1 ∨ ∑ k ∈ Icc 2 nodes.length, cap / k < cap := by
  constructor
  · intro h
    have hlasts := lasts_of_leaves nodes 0 fun s hs => (h s hs).leaves
    rwa [Nat.zero_add] at hlasts
  · intro hlasts s hs
    exact shares_of_lasts hlasts hs

/-- Three sessions of a run of four spend what each is given, and the third is given all that
    remains, with one node still owed. -/
theorem not_sharing : ¬ ∀ (cap : Nat) (nodes : List NodeId) (s : Sharing),
    Reached (Sharing.step cap) Free (.start nodes) s → Shares cap nodes s := by
  intro h
  obtain ⟨s, hs, hat⟩ := exists_reached (Sharing.step 100) Free
    (.start ["plan", "build", "review", "ship"]) [25, 33] (fun s => s = ⟨58, ["review", "ship"]⟩)
    (by decide)
  have hat : s = ⟨58, ["review", "ship"]⟩ := of_decide_eq_true hat
  have hleaves := (h 100 _ s hs).leaves
  rw [hat] at hleaves
  exact absurd (hleaves (by decide)) (by decide)

end Yunta.Budget
