/-
  The room a pool of checkouts makes on its disk.

  1. **Builds** — what a survey of the pool measured: the sum of every build, the largest, and those
     the pool may empty, of checkouts on no branch and kept for no unit, the least recently used
     first (`Builds.of`).

  2. **Making room** — `keepWithin` empties them in that order until the builds are within the
     budget and the disk has what is needed above its floor.  The one spared and those somebody
     holds are passed over.  What trying to empty a build comes to, and what the disk has then, is
     read from outside (`Attempt`).

  3. **Main result** — `keepWithin_makesRoom`: what it empties is free, in order of use, and nothing
     after the room suffices; answering `Ok` the room covers the need and the floor, as far as their
     sum fits a `u64`; and answering `NoRoom` it emptied every build it may.

  The sum is taken with saturation, so on a disk with `u64::MAX` bytes free a need and a floor past
  that are covered by less than they are (`ok_uncovered`).
-/
import Mathlib.Algebra.GroupWithZero.Nat
import Mathlib.Data.List.Sort
import Mathlib.Order.Lattice

set_option linter.unusedVariables false

namespace Yunta.Pool

/-! ## Limits -/

/-- A file system's size and what its user may still write there. -/
structure Space where
  total : Nat
  available : Nat

/-- An amount of a disk: bytes, or a share of the whole in percent. -/
inductive DiskShare where
  | bytes (amount : Nat)
  | percent (share : Nat)

/-- This amount of a file system holding `total` bytes. -/
def DiskShare.of (total : Nat) : DiskShare → Nat
  | .bytes amount => amount
  | .percent share => total / 100 * share

structure PoolConfig where
  budget : Option DiskShare := none
  keepFree : Option DiskShare := none

/-- The largest `u64`. -/
def u64Max : Nat := 2 ^ 64 - 1

/-- The pool's limits: what its builds may take together, and what of the disk stays free. -/
structure Limits where
  budget : Nat
  keepFree : Nat

def Limits.of (config : PoolConfig) (space : Space) (largest : Nat) : Limits where
  budget :=
    match config.budget with
    | some budget => budget.of space.total
    | none =>
      let share := space.total / 100 * 20
      if largest = 0 then share else min share (min (largest * 3) u64Max)
  keepFree :=
    match config.keepFree with
    | some keepFree => keepFree.of space.total
    | none => max (space.total / 100 * 5) 10000000000

/-! ## Builds -/

/-- The build a checkout was last given back with: what git ignores in it, and its bytes once
    counted. -/
structure Built where
  roots : List String
  bytes : Option Nat

/-- Whether the checkout holds a build at all. -/
def Built.holds (built : Built) : Bool := !built.roots.isEmpty || built.bytes.any (0 < ·)

/-- What its build adds to a sum: nothing for a build nobody counted. -/
def Built.counted (built : Built) : Nat := built.bytes.getD 0

/-- Where a checkout stands: the branch it is on, if any. -/
structure Standing where
  branch : Option String

/-- When a checkout was last held, and the unit it is kept for. -/
structure Held where
  «at» : Int
  unit : Option String

/-- One checkout of the pool, as the survey found it. -/
structure Slot where
  number : Nat
  path : String
  standing : Option Standing
  held : Option Held
  built : Option Built

/-- A build in a checkout nobody keeps. -/
structure Emptiable where
  number : Nat
  path : String
  bytes : Nat
  used : Option Int
  deriving DecidableEq

def emptiable (slot : Slot) : Option Emptiable := do
  let built ← slot.built
  let standing ← slot.standing
  let kept := (slot.held.bind (·.unit)).isSome
  if built.holds && standing.branch.isNone && !kept then
    some ⟨slot.number, slot.path, built.counted, slot.held.map (·.at)⟩
  else none

/-- Used no later: a checkout nobody held before every other. -/
def usedLe : Option Int → Option Int → Bool
  | none, _ => true
  | some _, none => false
  | some a, some b => a ≤ b

/-- What the builds of a survey come to. -/
structure Builds where
  held : Nat
  largest : Nat
  emptiable : List Emptiable

/-- The bytes of every build a survey measured. -/
def measured (slots : List Slot) : List Nat := (slots.filterMap (·.built)).map Built.counted

/-- The sum is a `u64`'s. -/
def Builds.of (slots : List Slot) : Builds where
  held := (measured slots).sum % 2 ^ 64
  largest := (measured slots).foldl max 0
  emptiable := (slots.filterMap Pool.emptiable).mergeSort fun a b => usedLe a.used b.used

/-! ## Making room -/

/-- What trying to empty a build comes to: somebody holds its checkout; git, the lock or the disk
    failed; or it is empty, and the disk has what a reading after it says, where there is one. -/
inductive Attempt (E : Type) where
  | held
  | failed (error : E)
  | emptied (space : Option Space)

structure Room where
  available : Nat
  need : Nat
  keepFree : Nat

inductive WorktreeError (E : Type) where
  | noRoom (room : Room)
  | other (error : E)

/-- The builds held and the bytes available, as the loop last knew them, and what it emptied. -/
structure Making where
  held : Nat
  available : Nat
  emptied : List Emptiable := []

section
variable {E : Type} (attempt : Emptiable → Attempt E) (need : Nat) (spare : Option Nat)

/-- Whether `available` leaves too little for `need` above the floor. -/
def short (limits : Limits) (available : Nat) : Bool :=
  available < min (need + limits.keepFree) u64Max

/-- The loop over the builds: what it made, and the error that ended it. -/
def keeping (limits : Limits) : List Emptiable → Making → Making × Option E
  | [], making => (making, none)
  | build :: builds, making =>
    if making.held ≤ limits.budget ∧ ¬ short need limits making.available then (making, none)
    else if some build.number = spare then keeping limits builds making
    else
      match attempt build with
      | .held => keeping limits builds making
      | .failed error => (making, some error)
      | .emptied space =>
        keeping limits builds
          { held := making.held - build.bytes
            available := (space.map (·.available)).getD making.available
            emptied := making.emptied ++ [build] }

/-- What the loop answers: the checkouts it emptied, where they leave enough. -/
def answer (limits : Limits) : Making × Option E → Except (WorktreeError E) (List Nat)
  | (_, some error) => .error (.other error)
  | (making, none) =>
    if short need limits making.available then
      .error (.noRoom ⟨making.available, need, limits.keepFree⟩)
    else .ok (making.emptied.map (·.number))

/-- **`keep_within`**: the builds it emptied, in order, and its answer. -/
def keepWithin (config : PoolConfig) (space : Except E Space) (builds : Builds) :
    List Emptiable × Except (WorktreeError E) (List Nat) :=
  match space with
  | .error error => ([], .error (.other error))
  | .ok space =>
    let limits := Limits.of config space builds.largest
    let made := keeping attempt need spare limits builds.emptiable
      ⟨builds.held, space.available, []⟩
    (made.1.emptied, answer need limits made)

/-! ## What it makes -/

/-- Whether a build may be emptied: its checkout is not the one spared, and nobody holds it. -/
def mayEmpty (build : Emptiable) : Bool :=
  some build.number != spare && match attempt build with | .held => false | _ => true

/-- What was read of the disk after trying to empty a build. -/
def Attempt.read : Attempt E → Option Nat
  | .emptied space => space.map (·.available)
  | _ => none

/-- What the disk has, as read last while `builds` were emptied. -/
def lastRead (free : Nat) (builds : List Emptiable) : Nat :=
  builds.foldl (fun free build => (attempt build).read.getD free) free

/-- The bytes of the builds once `builds` are empty. -/
def leftOf (bytes : Nat) (builds : List Emptiable) : Nat :=
  builds.foldl (fun bytes build => bytes - build.bytes) bytes

/-- **Whether the room suffices** once `builds` are empty: those left are within the budget, and the
    disk has the need above its floor. -/
def Suffices (limits : Limits) (bytes free : Nat) (builds : List Emptiable) : Prop :=
  leftOf bytes builds ≤ limits.budget ∧ need + limits.keepFree ≤ lastRead attempt free builds

/-- No build of `builds` is emptied once those before it suffice. -/
def NoneAfterRoom (limits : Limits) (bytes free : Nat) (builds : List Emptiable) : Prop :=
  ∀ before build after, builds = before ++ build :: after →
    ¬ Suffices attempt need limits bytes free before

theorem lastRead_append (free : Nat) (builds : List Emptiable) (build : Emptiable) :
    lastRead attempt free (builds ++ [build]) =
      (attempt build).read.getD (lastRead attempt free builds) := by
  simp [lastRead]

theorem leftOf_append (bytes : Nat) (builds : List Emptiable) (build : Emptiable) :
    leftOf bytes (builds ++ [build]) = leftOf bytes builds - build.bytes := by
  simp [leftOf]

theorem not_short_iff {limits : Limits} {available : Nat} :
    ¬ short need limits available = true ↔ min (need + limits.keepFree) u64Max ≤ available := by
  simp only [short, decide_eq_true_eq, not_lt]

variable {attempt need} in
/-- One build more emptied where those before it did not suffice. -/
theorem NoneAfterRoom.snoc {limits : Limits} {bytes free : Nat} {builds : List Emptiable}
    {build : Emptiable} (h : NoneAfterRoom attempt need limits bytes free builds)
    (hnot : ¬ Suffices attempt need limits bytes free builds) :
    NoneAfterRoom attempt need limits bytes free (builds ++ [build]) := by
  intro before last after happend
  rcases List.append_eq_append_iff.mp happend with ⟨mid, rfl, hmid⟩ | ⟨mid, rfl, hmid⟩
  · cases mid with
    | nil =>
      rw [List.append_nil]
      exact hnot
    | cons first mid =>
      have hlen := congrArg List.length hmid
      simp at hlen
  · cases mid with
    | nil =>
      rw [List.append_nil] at hnot
      exact hnot
    | cons first mid =>
      obtain ⟨rfl, -⟩ := List.cons.inj hmid
      exact h before last mid rfl

/-- What the loop knows of the builds emptied so far: no more is held than it counts left, what is
    available is what was read last, and none was emptied after the room sufficed. -/
structure Making.Sound (limits : Limits) (bytes free : Nat) (making : Making) : Prop where
  held : making.held ≤ leftOf bytes making.emptied
  available : making.available = lastRead attempt free making.emptied
  noneAfter : NoneAfterRoom attempt need limits bytes free making.emptied

variable {attempt need spare} in
/-- **The loop goes through the builds in order**: it empties those it may of the ones it comes to,
    stays sound, and stops early only where the room suffices or an emptying failed. -/
theorem keeping_spec {limits : Limits} {bytes free : Nat} (builds : List Emptiable)
    {making : Making} (h : making.Sound attempt need limits bytes free) :
    ∃ tried untried, builds = tried ++ untried ∧
      (keeping attempt need spare limits builds making).1.emptied =
        making.emptied ++ tried.filter (mayEmpty attempt spare) ∧
      (keeping attempt need spare limits builds making).1.Sound attempt need limits bytes free ∧
      ((keeping attempt need spare limits builds making).2 = none →
        short need limits (keeping attempt need spare limits builds making).1.available = true →
        untried = []) := by
  induction builds generalizing making with
  | nil => exact ⟨[], [], rfl, by simp [keeping], h, fun _ _ => rfl⟩
  | cons build builds ih =>
    unfold keeping
    by_cases hroom : making.held ≤ limits.budget ∧ ¬ short need limits making.available = true
    · rw [if_pos hroom]
      exact ⟨[], build :: builds, rfl, by simp, h, fun _ hshort => absurd hshort hroom.2⟩
    rw [if_neg hroom]
    -- A build passed over leaves what was made as it was.
    have hpass : mayEmpty attempt spare build = false →
        ∃ tried untried, build :: builds = tried ++ untried ∧
          (keeping attempt need spare limits builds making).1.emptied =
            making.emptied ++ tried.filter (mayEmpty attempt spare) ∧
          (keeping attempt need spare limits builds making).1.Sound attempt need limits bytes free ∧
          ((keeping attempt need spare limits builds making).2 = none →
            short need limits (keeping attempt need spare limits builds making).1.available =
              true → untried = []) := by
      intro hnot
      obtain ⟨tried, untried, rfl, hemptied, hsound, hend⟩ := ih h
      refine ⟨build :: tried, untried, rfl, ?_, hsound, hend⟩
      rw [hemptied, List.filter_cons_of_neg (by simp [hnot])]
    by_cases hspare : some build.number = spare
    · rw [if_pos hspare]
      exact hpass (by simp [mayEmpty, hspare])
    rw [if_neg hspare]
    cases hattempt : attempt build with
    | held => exact hpass (by simp [mayEmpty, hattempt])
    | failed error =>
      exact ⟨[], build :: builds, rfl, by simp, h, fun hnone => absurd hnone (by simp)⟩
    | emptied space =>
      have hmay : mayEmpty attempt spare build = true := by simp [mayEmpty, hspare, hattempt]
      have hnot : ¬ Suffices attempt need limits bytes free making.emptied := by
        rintro ⟨hleft, hcovers⟩
        have hheld := h.held
        rw [← h.available] at hcovers
        exact hroom ⟨by omega, (not_short_iff need).mpr (by omega)⟩
      have hnext : Making.Sound attempt need limits bytes free
          { held := making.held - build.bytes
            available := (space.map (·.available)).getD making.available
            emptied := making.emptied ++ [build] } := by
        refine ⟨?_, ?_, h.noneAfter.snoc hnot⟩
        · have hheld := h.held
          show making.held - build.bytes ≤ leftOf bytes (making.emptied ++ [build])
          rw [leftOf_append]
          omega
        · show _ = lastRead attempt free (making.emptied ++ [build])
          rw [lastRead_append, hattempt, ← h.available]
          rfl
      obtain ⟨tried, untried, rfl, hemptied, hsound, hend⟩ := ih hnext
      refine ⟨build :: tried, untried, rfl, ?_, hsound, hend⟩
      rw [hemptied, List.filter_cons_of_pos hmay, List.append_assoc]
      rfl

variable {need} in
theorem answer_ok {limits : Limits} {run : Making × Option E} {numbers : List Nat}
    (h : answer need limits run = .ok numbers) :
    numbers = run.1.emptied.map (·.number) ∧ ¬ short need limits run.1.available = true := by
  obtain ⟨making, error⟩ := run
  cases error with
  | some error => cases h
  | none =>
    rw [answer] at h
    split at h
    · cases h
    next hshort => exact ⟨(Except.ok.inj h).symm, hshort⟩

variable {need} in
theorem answer_noRoom {limits : Limits} {run : Making × Option E} {room : Room}
    (h : answer need limits run = .error (.noRoom room)) :
    run.2 = none ∧ short need limits run.1.available = true := by
  obtain ⟨making, error⟩ := run
  cases error with
  | some error => cases h
  | none =>
    rw [answer] at h
    split at h
    next hshort => exact ⟨rfl, hshort⟩
    · cases h

/-- A checkout nobody keeps: on no branch, and kept for no unit. -/
def Slot.Free (slot : Slot) : Prop :=
  (∃ standing, slot.standing = some standing ∧ standing.branch = none) ∧
    slot.held.bind (·.unit) = none

theorem free_of_emptiable {slot : Slot} {build : Emptiable} (h : emptiable slot = some build) :
    slot.Free := by
  unfold emptiable at h
  cases hbuilt : slot.built with
  | none => simp [hbuilt] at h
  | some built =>
    cases hstanding : slot.standing with
    | none => simp [hbuilt, hstanding] at h
    | some standing =>
      simp only [hbuilt, hstanding, Option.bind_eq_bind, Option.bind_some] at h
      split at h
      next hkept =>
        simp only [Bool.and_eq_true, Option.isNone_iff_eq_none, Bool.not_eq_eq_eq_not,
          Bool.not_true, Option.isSome_eq_false_iff] at hkept
        exact ⟨⟨standing, hstanding, hkept.1.2⟩, hkept.2⟩
      · cases h

/-! ## The order -/

theorem usedLe_total (a b : Option Int) : (usedLe a b || usedLe b a) = true := by
  cases a <;> cases b <;> simp [usedLe]
  omega

theorem usedLe_trans {a b c : Option Int} (hab : usedLe a b = true) (hbc : usedLe b c = true) :
    usedLe a c = true := by
  cases a <;> cases b <;> cases c <;> simp_all [usedLe]
  omega

/-- The builds stand in the order their checkouts were used in. -/
theorem builds_ordered (slots : List Slot) :
    (Builds.of slots).emptiable.Pairwise fun a b => usedLe a.used b.used = true := by
  let le := fun a b : Emptiable => usedLe a.used b.used
  have htrans : ∀ a b c, le a b = true → le b c = true → le a c = true := fun _ _ _ => usedLe_trans
  have htotal : ∀ a b, (le a b || le b a) = true := fun a b => usedLe_total a.used b.used
  exact List.pairwise_mergeSort htrans htotal (slots.filterMap Pool.emptiable)

theorem mem_builds {slots : List Slot} {build : Emptiable} :
    build ∈ (Builds.of slots).emptiable ↔ ∃ slot ∈ slots, emptiable slot = some build := by
  show build ∈ (slots.filterMap Pool.emptiable).mergeSort _ ↔ _
  rw [List.mem_mergeSort, List.mem_filterMap]

/-! ## The room made -/

/-- **What making room comes to**: `emptied` of the checkouts, and the answer.

    - What is emptied is free, not spared and held by nobody, in order of use, and what may be
      emptied and is not was used no earlier.
    - None is emptied once the room suffices.
    - `Ok` means that the room covers the need and the floor, as a `u64` sums them.
    - `NoRoom` means that it does not, with every build emptied that may be. -/
structure MakesRoom (slots : List Slot) (limits : Limits) (free : Nat) (emptied : List Emptiable)
    (answer : Except (WorktreeError E) (List Nat)) : Prop where
  onlyFree : ∀ build ∈ emptied, mayEmpty attempt spare build = true ∧
    ∃ slot ∈ slots, emptiable slot = some build ∧ slot.Free
  ordered : emptied.Pairwise fun a b => usedLe a.used b.used = true
  leastUsed : ∀ build ∈ emptied, ∀ slot ∈ slots, ∀ other, emptiable slot = some other →
    mayEmpty attempt spare other = true → other ∉ emptied → usedLe build.used other.used = true
  noneAfter : NoneAfterRoom attempt need limits (measured slots).sum free emptied
  ok : ∀ numbers, answer = .ok numbers → numbers = emptied.map (·.number) ∧
    min (need + limits.keepFree) u64Max ≤ lastRead attempt free emptied
  noRoom : ∀ room, answer = .error (.noRoom room) →
    lastRead attempt free emptied < need + limits.keepFree ∧
      ∀ slot ∈ slots, ∀ build, emptiable slot = some build →
        mayEmpty attempt spare build = true → build ∈ emptied

/-- **The pool makes just enough room**, whatever its checkouts hold, whoever holds them, and
    whatever emptying one leaves on the disk. -/
theorem keepWithin_makesRoom (config : PoolConfig) (space : Space) (slots : List Slot) :
    let limits := Limits.of config space (Builds.of slots).largest
    let made := keepWithin attempt need spare config (.ok space) (Builds.of slots)
    MakesRoom attempt need spare slots limits space.available made.1 made.2 := by
  intro limits made
  let start : Making := ⟨(Builds.of slots).held, space.available, []⟩
  have hstart : start.Sound attempt need limits (measured slots).sum space.available := by
    refine ⟨Nat.mod_le _ _, rfl, fun before build after happend => ?_⟩
    have hlen := congrArg List.length happend
    simp [start] at hlen
  obtain ⟨tried, untried, hbuilds, hemptied, hsound, hend⟩ :=
    @keeping_spec E attempt need spare limits _ _ (Builds.of slots).emptiable _ hstart
  let run := keeping attempt need spare limits (Builds.of slots).emptiable start
  have hfilter : made.1 = tried.filter (mayEmpty attempt spare) := hemptied
  have hread : run.1.available = lastRead attempt space.available made.1 := hsound.available
  have horder := builds_ordered slots
  rw [hbuilds, List.pairwise_append] at horder
  have hmem : ∀ {build}, build ∈ tried ++ untried ↔ ∃ slot ∈ slots, emptiable slot = some build :=
    fun {build} => hbuilds ▸ mem_builds
  refine ⟨fun build hbuild => ?_, ?_, ?_, hsound.noneAfter, fun numbers hok => ?_,
    fun room hroom => ?_⟩
  · rw [hfilter] at hbuild
    obtain ⟨htried, hmay⟩ := List.mem_filter.mp hbuild
    obtain ⟨slot, hslot, hemptiable⟩ := hmem.mp (List.mem_append_left untried htried)
    exact ⟨hmay, slot, hslot, hemptiable, free_of_emptiable hemptiable⟩
  · rw [hfilter]
    exact horder.1.filter _
  · intro build hbuild slot hslot other hother hmay hleft
    rw [hfilter] at hbuild hleft
    have huntried : other ∈ untried := by
      rcases List.mem_append.mp (hmem.mpr ⟨slot, hslot, hother⟩) with htried | huntried
      · exact absurd (List.mem_filter.mpr ⟨htried, hmay⟩) hleft
      · exact huntried
    exact horder.2.2 build (List.mem_filter.mp hbuild).1 other huntried
  · obtain ⟨hnumbers, hshort⟩ := answer_ok hok
    rw [← hread]
    exact ⟨hnumbers, (not_short_iff need).mp hshort⟩
  · obtain ⟨hnone, hshort⟩ := answer_noRoom hroom
    obtain rfl : untried = [] := hend hnone hshort
    have hless : run.1.available < min (need + limits.keepFree) u64Max :=
      of_decide_eq_true hshort
    refine ⟨by rw [← hread]; omega, fun slot hslot build hemptiable hmay => ?_⟩
    have htried := hmem.mpr ⟨slot, hslot, hemptiable⟩
    rw [List.append_nil] at htried
    rw [hfilter]
    exact List.mem_filter.mpr ⟨htried, hmay⟩

end

/-- On a disk with `u64::MAX` bytes free, a need of as many bytes above a floor of one byte is
    answered `Ok`. -/
theorem ok_uncovered :
    ¬ ∀ (need : Nat) (config : PoolConfig) (space : Space) (slots : List Slot) (numbers : List Nat),
      let attempt : Emptiable → Attempt Unit := fun _ => .held
      let limits := Limits.of config space (Builds.of slots).largest
      let made := keepWithin attempt need none config (.ok space) (Builds.of slots)
      made.2 = .ok numbers → need + limits.keepFree ≤ lastRead attempt space.available made.1 := by
  intro h
  have hnone : Builds.of [] = ⟨0, 0, []⟩ := by simp [Builds.of, measured]
  have hcovers := h u64Max { keepFree := some (.bytes 1) } ⟨u64Max, u64Max⟩ []
  rw [hnone] at hcovers
  have hless : u64Max + 1 ≤ u64Max := hcovers [] rfl
  omega

end Yunta.Pool
