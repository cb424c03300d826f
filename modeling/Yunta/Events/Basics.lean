/-
  The vocabulary every event and every ledger is written in: identifiers, positions, the run's
  clock, tokens, and the envelope a ledger reads of an event.

  * An identifier is a `String`: the rules its parser checks are the frontier's, and no function
    below reads the shape of an id, only whether two are equal and how they are ordered.
  * A position in a run's log (`Seq`) is a `Nat`: storage assigns one to the first event.
  * An instant (`DateTime`) is an `Int` of the clock's unit, nanoseconds since the epoch, and a
    duration a `Nat` of the same unit.
  * `TokenUsage` adds field by field, as the release build adds `u64`s: modulo 2^64 (`Fits` says
    where no sum wraps); `cached` stays unknown only while nobody reported it.
-/
import Mathlib.Algebra.BigOperators.Group.List.Basic
import Mathlib.Algebra.Order.Monoid.Prod
import Mathlib.Algebra.Order.Ring.Nat
import Mathlib.Data.UInt

set_option linter.unusedVariables false

namespace Yunta

/-! ## Identifiers -/

abbrev NodeId := String
abbrev TaskId := String
abbrev FindingId := String
abbrev RunId := String
abbrev QuestionId := String
abbrev OptionId := String
abbrev SessionId := String
abbrev ModeName := String
abbrev ModelName := String
abbrev RunnerName := String
abbrev AdapterId := String
abbrev CommandName := String
abbrev Responder := String
abbrev ScopeGlob := String
abbrev PathBuf := String

instance nodeLawfulBEq : LawfulBEq (Option NodeId) := inferInstance

/-- A git tree, by its hash. -/
abbrev TreeId := String

/-- A git commit, by its hash. -/
abbrev CommitSha := String

/-- The hash of some content, in hex. -/
abbrev ContentHash := String

/-! ## The clock -/

/-- `Duration::from_millis`, in nanoseconds. -/
def fromMillis (ms : Nat) : Nat := ms * 1000000

/-- `(to - from).to_std().unwrap_or(Duration::ZERO)`: the wall-clock interval, and nothing when
    `until` is the earlier of the two. -/
def wallBetween (since until_ : Int) : Nat := (until_ - since).toNat

/-! ## Tokens -/

/-- Tokens a session reported, or a sum of such reports. -/
structure TokenUsage where
  input : UInt64 := 0
  output : UInt64 := 0
  /-- The part of `input` read from a cache, when the CLI says: never added to it. -/
  cached : Option UInt64 := none
  deriving DecidableEq

namespace TokenUsage

instance : Inhabited TokenUsage := ⟨{}⟩
instance : Zero TokenUsage := ⟨{}⟩

/-- Input plus output: the single figure token cost is measured by. -/
def total (u : TokenUsage) : UInt64 := u.input + u.output

/-- `cached` under `+`: unknown only while nobody reported it. -/
def addCached : Option UInt64 → Option UInt64 → Option UInt64
  | none, none => none
  | a, b => some (a.getD 0 + b.getD 0)

/-- Field by field. -/
protected def add (a b : TokenUsage) : TokenUsage where
  input := a.input + b.input
  output := a.output + b.output
  cached := addCached a.cached b.cached

instance : Add TokenUsage := ⟨TokenUsage.add⟩

/-- `u64::saturating_sub`. -/
def subSaturating (a b : UInt64) : UInt64 := if b ≤ a then a - b else 0

/-- Field by field, never below zero. -/
def saturatingSub (a b : TokenUsage) : TokenUsage where
  input := subSaturating a.input b.input
  output := subSaturating a.output b.output
  cached := a.cached.map fun c => subSaturating c (b.cached.getD 0)

@[simp] theorem zero_input : (0 : TokenUsage).input = 0 := rfl
@[simp] theorem zero_output : (0 : TokenUsage).output = 0 := rfl
@[simp] theorem zero_cached : (0 : TokenUsage).cached = none := rfl
@[simp] theorem add_input (a b : TokenUsage) : (a + b).input = a.input + b.input := rfl
@[simp] theorem add_output (a b : TokenUsage) : (a + b).output = a.output + b.output := rfl
@[simp] theorem add_cached (a b : TokenUsage) :
    (a + b).cached = addCached a.cached b.cached := rfl

theorem ext' {a b : TokenUsage} (hi : a.input = b.input) (ho : a.output = b.output)
    (hc : a.cached = b.cached) : a = b := by
  cases a; cases b; simp_all

/-- Tokens add as a commutative monoid: a sum over records does not depend on their order, even
    where it wraps. -/
instance : AddCommMonoid TokenUsage where
  add_assoc a b c := by
    refine ext' (UInt64.add_assoc ..) (UInt64.add_assoc ..) ?_
    rcases ha : a.cached with _ | x <;> rcases hb : b.cached with _ | y <;>
      rcases hc : c.cached with _ | z <;> simp [ha, hb, hc, addCached, UInt64.add_assoc]
  zero_add a := by
    refine ext' (UInt64.zero_add _) (UInt64.zero_add _) ?_
    rcases ha : a.cached with _ | x <;> simp [ha, addCached]
  add_zero a := by
    refine ext' (UInt64.add_zero _) (UInt64.add_zero _) ?_
    rcases ha : a.cached with _ | x <;> simp [ha, addCached]
  add_comm a b := by
    refine ext' (UInt64.add_comm ..) (UInt64.add_comm ..) ?_
    rcases ha : a.cached with _ | x <;> rcases hb : b.cached with _ | y <;>
      simp [ha, hb, addCached, UInt64.add_comm]
  nsmul := nsmulRec

theorem addCached_getD (a b : Option UInt64) :
    (addCached a b).getD 0 = a.getD 0 + b.getD 0 := by
  cases a <;> cases b <;> simp [addCached]

@[simp] theorem total_zero : (0 : TokenUsage).total = 0 := rfl

@[simp] theorem total_add (a b : TokenUsage) : (a + b).total = a.total + b.total :=
  add_add_add_comm a.input b.input a.output b.output

/-! ### The figures as numbers -/

/-- The three figures as numbers, an unknown `cached` counting as none. -/
def amounts (u : TokenUsage) : ℕ × ℕ × ℕ :=
  (u.input.toNat, u.output.toNat, (u.cached.getD 0).toNat)

/-- Figure by figure. -/
instance : Preorder TokenUsage := Preorder.lift amounts

instance (a b : TokenUsage) : Decidable (a ≤ b) :=
  inferInstanceAs (Decidable (a.amounts ≤ b.amounts))

/-- No figure of the sum of `spends` reaches 2^64. -/
def Fits (spends : List TokenUsage) : Prop :=
  (spends.map amounts).sum ≤ (2 ^ 64 - 1, 2 ^ 64 - 1, 2 ^ 64 - 1)

instance (spends : List TokenUsage) : Decidable (Fits spends) :=
  inferInstanceAs (Decidable (_ ∧ _))

theorem Fits.left {spends more : List TokenUsage} (h : Fits (spends ++ more)) : Fits spends := by
  unfold Fits at h ⊢
  rw [List.map_append, List.sum_append] at h
  exact le_self_add.trans h

theorem Fits.right {spends more : List TokenUsage} (h : Fits (spends ++ more)) : Fits more := by
  unfold Fits at h ⊢
  rw [List.map_append, List.sum_append] at h
  exact le_add_self.trans h

/-- Below 2^64 the sum is the sum of the numbers. -/
theorem amounts_add {a b : TokenUsage}
    (h : a.amounts + b.amounts ≤ (2 ^ 64 - 1, 2 ^ 64 - 1, 2 ^ 64 - 1)) :
    (a + b).amounts = a.amounts + b.amounts := by
  have hadd (x y : UInt64) (hxy : x.toNat + y.toNat ≤ 2 ^ 64 - 1) :
      (x + y).toNat = x.toNat + y.toNat := by
    rw [UInt64.toNat_add]
    omega
  obtain ⟨hinput, houtput, hcached⟩ := h
  refine Prod.ext (hadd _ _ hinput) (Prod.ext (hadd _ _ houtput) ?_)
  refine Eq.trans ?_ (hadd _ _ hcached)
  exact congrArg UInt64.toNat (addCached_getD a.cached b.cached)

theorem amounts_sum {spends : List TokenUsage} (h : Fits spends) :
    spends.sum.amounts = (spends.map amounts).sum := by
  induction spends with
  | nil => rfl
  | cons spent spends ih =>
    unfold Fits at h
    rw [List.map_cons, List.sum_cons] at h
    have hrest := ih (le_add_self.trans h)
    rw [← hrest] at h
    rw [List.map_cons, List.sum_cons, List.sum_cons, amounts_add h, hrest]

/-- Spending more, below 2^64, lowers no figure. -/
theorem sum_le_sum_append {spends more : List TokenUsage} (h : Fits (spends ++ more)) :
    spends.sum ≤ (spends ++ more).sum := by
  show spends.sum.amounts ≤ (spends ++ more).sum.amounts
  rw [amounts_sum h.left, amounts_sum h, List.map_append, List.sum_append]
  exact le_self_add

end TokenUsage

/-- `settled`: closed work and settled asking rounds. `inFlight`: open usage nothing has
    settled. -/
structure Spend where
  settled : TokenUsage := 0
  inFlight : TokenUsage := 0
  deriving DecidableEq

namespace Spend

instance : Inhabited Spend := ⟨{}⟩
instance : Zero Spend := ⟨{}⟩
instance : Add Spend := ⟨fun a b => ⟨a.settled + b.settled, a.inFlight + b.inFlight⟩⟩

@[simp] theorem zero_settled : (0 : Spend).settled = 0 := rfl
@[simp] theorem add_settled (a b : Spend) : (a + b).settled = a.settled + b.settled := rfl
@[simp] theorem add_inFlight (a b : Spend) : (a + b).inFlight = a.inFlight + b.inFlight := rfl

end Spend

/-! ## The envelope -/

/-- One event's envelope, as a ledger's `apply` reads it. -/
structure EventMeta where
  seq : Nat
  at_ : Int
  /-- The node the event was written under; `none` for a run-level fact. -/
  node : Option NodeId
  deriving DecidableEq

end Yunta
