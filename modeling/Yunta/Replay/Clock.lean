/-
  The run's wall clock, booked one stretch at a time as its events apply.

  1. **Buckets** — `TimeSpent` is the run's wall clock by what it was spent on, `Share` the bucket
     a stretch is booked under, and `TimeSpent.add` the one way a bucket grows.

  2. **What is open** — `Open.of` reads the ledgers before the event that closes a stretch is
     applied; `Share.closing` classifies the stretch by it and by what closes it.

  3. **The timeline** — `Timeline.book` books the stretch that ends at an event, and
     `Timeline.spent` reads the buckets at a closing instant, formatting time moved out of
     working time.
-/
import Yunta.Ledgers.Nodes
import Yunta.Ledgers.Tasks
import Yunta.Ledgers.Gates

set_option linter.unusedVariables false

namespace Yunta

/-! ## Buckets -/

/-- A run's wall-clock, by what it was spent on. -/
structure TimeSpent where
  working : Nat := 0
  /-- What sessions waited while the engine formatted what they wrote: taken out of `working`. -/
  rails : Nat := 0
  checks : Nat := 0
  /-- What guards ran while a criterion of their own task was red: part of `checks`. -/
  decidedChecks : Nat := 0
  measuring : Nat := 0
  people : Nat := 0
  offline : Nat := 0
  parked : Nat := 0
  between : Nat := 0
  deriving DecidableEq

/-- One share for each bucket a stretch can fill. -/
inductive Share where
  | working | checks | measuring | people | offline | parked | between
  deriving DecidableEq

namespace TimeSpent

/-- Every stretch, counted once. -/
def total (t : TimeSpent) : Nat :=
  t.working + t.rails + t.checks + t.measuring + t.people + t.offline + t.parked + t.between

/-- `*t.slot(share) += stretch`. -/
def add (t : TimeSpent) (share : Share) (stretch : Nat) : TimeSpent :=
  match share with
  | .working => { t with working := t.working + stretch }
  | .checks => { t with checks := t.checks + stretch }
  | .measuring => { t with measuring := t.measuring + stretch }
  | .people => { t with people := t.people + stretch }
  | .offline => { t with offline := t.offline + stretch }
  | .parked => { t with parked := t.parked + stretch }
  | .between => { t with between := t.between + stretch }

/-- Whatever bucket a stretch fills, the total grows by exactly the stretch. -/
@[simp] theorem total_add (t : TimeSpent) (share : Share) (stretch : Nat) :
    (t.add share stretch).total = t.total + stretch := by
  cases share <;> simp only [add, total] <;> omega

@[simp] theorem add_rails (t : TimeSpent) (share : Share) (stretch : Nat) :
    (t.add share stretch).rails = t.rails := by
  cases share <;> rfl

end TimeSpent

/-! ## What is open -/

/-- What the ledgers hold open at the moment a stretch closes. -/
structure Open where
  paused : Bool
  attempting : Bool
  attemptsOffline : Bool
  people : Bool
  /-- The nodes a person is asked about. -/
  asked : OrdSet NodeId
  checking : Bool

namespace Open

/-- What the ledgers hold open now. -/
def of (run : RunLedger) (nodes : NodeLedger) (gates : GateLedger) (tasks : TaskLedger) : Open :=
  let owed := (run.paused.map (·.1)).filter PauseReason.waitsOnAPerson
  { paused := run.phase == .paused && owed.isNone
    attempting := nodes.attempting
    attemptsOffline := nodes.attemptsOffline
    people := owed.isSome || !gates.asking.isEmpty || !gates.awaiting.isEmpty
    asked :=
      (gates.asking.toList.filterMap id ++ gates.awaiting.toList ++
        (owed.bind PauseReason.gate).toList).foldl (fun set node => set.insert node) ∅
    checking := !tasks.checking.isEmpty }

/-- Whether nothing is open that a suite measurement waits for. -/
def nothingRunning (o : Open) : Bool := !o.paused && !o.attempting && !o.people && !o.checking

end Open

/-- Whether `event` is the suite's measurement, closing a stretch it ran. -/
def isMeasurement (event : StoredEvent) : Bool :=
  match event.payload with
  | some (.run (.baselineCaptured _)) => true
  | _ => false

/-- Whether `event` closes a check the engine ran on a task's tree. -/
def isCheck (event : StoredEvent) : Bool :=
  match event.payload with
  | some (.node (.criteriaChecked _)) | some (.tasks (.checkAnswered _)) => true
  | _ => false

namespace Share

/-- The share a stretch belongs to by what is open across it. -/
def across (o : Open) : Share :=
  if o.paused then parked
  else if o.people then people
  else if o.checking then checks
  else if o.attemptsOffline then offline
  else if o.attempting then working
  else between

/-- The share of the stretch that ends at `closing`. -/
def closing (o : Open) (event : StoredEvent) : Share :=
  if o.nothingRunning && isMeasurement event then measuring
  else if !o.paused && !o.checking && isCheck event then checks
  else across o

end Share

/-- How long the format `event` records took; nothing for any other event. -/
def formatting (event : StoredEvent) : Nat :=
  match event.payload with
  | some (.session (.writeFormatted p)) => fromMillis p.durationMs
  | _ => 0

/-- The results a check after the work answered. -/
def checkedResults (event : StoredEvent) : List CriterionResult :=
  match event.payload with
  | some (.node (.criteriaChecked check)) => if check.phase = .post then check.results else []
  | some (.tasks (.checkAnswered check)) => check.results
  | _ => []

/-- What a check after the work ran its guards for nothing: a criterion of the task's own was red
    in the same check. -/
def decided (event : StoredEvent) : Nat :=
  let results := checkedResults event
  let guard (r : CriterionResult) : Bool := r.type == some .guard
  if results.any fun r => !guard r && r.exitCode != 0 then
    ((results.filter fun r => guard r && !r.reused).filterMap fun r =>
      r.durationMs.map fromMillis).sum
  else 0

/-! ## The timeline -/

/-- Where the run began, where its last applied event stands, and every stretch between. -/
structure Timeline where
  firstAt : Option Int := none
  lastAt : Option Int := none
  booked : TimeSpent := {}
  peopleAt : OrdMap NodeId Nat := ∅
  /-- How long sessions waited while what they wrote was formatted. -/
  formatted : Nat := 0

/-- Credits `stretch` of a person's time to each node a person was asked about across it. -/
def credit (people : OrdMap NodeId Nat) (o : Open) (stretch : Nat) :
    OrdMap NodeId Nat :=
  o.asked.toList.foldl (fun people node => OrdMap.upsert people node 0 (· + stretch)) people

namespace Timeline

/-- Books the stretch that ends at `event`, classified by what `o` holds. -/
def book (t : Timeline) (event : StoredEvent) (o : Open) (asleep : Suspensions) : Timeline :=
  let t :=
    match t.lastAt with
    | some previous =>
      let stretch := asleep.awakeBetween previous event.timestamp
      let share := Share.closing o event
      { t with
        booked := t.booked.add share stretch
        peopleAt := if share = Share.people then credit t.peopleAt o stretch else t.peopleAt }
    | none => { t with firstAt := some event.timestamp }
  { t with
    lastAt := some event.timestamp
    booked := { t.booked with decidedChecks := t.booked.decidedChecks + decided event }
    formatted := t.formatted + formatting event }

/-- The booked stretches, and the stretch from the last applied event to `til`. -/
def stretched (t : Timeline) (o : Open) (asleep : Suspensions) (til : Option Int) :
    TimeSpent :=
  match t.lastAt, til with
  | some last, some til => t.booked.add (Share.across o) (asleep.awakeBetween last til)
  | _, _ => t.booked

/-- Where the wall-clock went up to `til`: write-formatting time comes out of working time. -/
def spent (t : Timeline) (o : Open) (asleep : Suspensions) (til : Option Int) : TimeSpent :=
  let spent := t.stretched o asleep til
  let rails := min t.formatted spent.working
  { spent with rails := rails, working := spent.working - rails }

/-- The span the clock covers up to `til`, or up to the last applied event. -/
def window (t : Timeline) (til : Option Int) : Option (Int × Int) :=
  match t.firstAt, til <|> t.lastAt with
  | some first, some last => some (first, last)
  | _, _ => none

/-! ## What a booking does -/

@[simp] theorem book_lastAt (t : Timeline) (event : StoredEvent) (o : Open)
    (asleep : Suspensions) : (t.book event o asleep).lastAt = some event.timestamp := rfl

/-- The first event books nothing and opens the window. -/
theorem book_first {t : Timeline} (h : t.lastAt = none) (event : StoredEvent) (o : Open)
    (asleep : Suspensions) :
    (t.book event o asleep).firstAt = some event.timestamp ∧
      (t.book event o asleep).booked.total = t.booked.total := by
  unfold book
  rw [h]
  exact ⟨rfl, rfl⟩

/-- A later event books its whole stretch, once, and leaves the window's start. -/
theorem book_next {t : Timeline} {previous : Int} (h : t.lastAt = some previous)
    (event : StoredEvent) (o : Open) (asleep : Suspensions) :
    (t.book event o asleep).firstAt = t.firstAt ∧
      (t.book event o asleep).booked.total =
        t.booked.total + asleep.awakeBetween previous event.timestamp := by
  unfold book
  rw [h]
  exact ⟨rfl, TimeSpent.total_add ..⟩

theorem book_rails (t : Timeline) (event : StoredEvent) (o : Open) (asleep : Suspensions) :
    (t.book event o asleep).booked.rails = t.booked.rails := by
  unfold book
  cases t.lastAt with
  | none => rfl
  | some previous => exact TimeSpent.add_rails ..

/-- Moving formatting time out of working time keeps the total, while no stretch was booked under
    the formatting bucket itself. -/
theorem spent_total (t : Timeline) (o : Open) (asleep : Suspensions) (til : Option Int)
    (h : (t.stretched o asleep til).rails = 0) :
    (t.spent o asleep til).total = (t.stretched o asleep til).total := by
  have hle : min t.formatted (t.stretched o asleep til).working ≤
      (t.stretched o asleep til).working := Nat.min_le_right _ _
  simp only [spent, TimeSpent.total, h]
  omega

end Timeline

end Yunta
