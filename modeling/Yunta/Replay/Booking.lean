/-
  Every stretch of a run's time is booked exactly once.

  A stretch runs from one event to the next, and `Timeline.book` puts its awake time in one bucket;
  which one depends on everything the ledgers hold open, and the total does not.  A suspension is
  carved out of the stretch its event ends: when it fits in that stretch it lies inside no other
  one, so what the stretches leave out is what the whole interval leaves out.

  `Booked` is that invariant: the buckets and the sleep make up the wall-clock so far.
-/
import Yunta.Replay.Refusal

set_option linter.unusedVariables false

namespace Yunta

/-! ## A log's own time -/

/-- The suspension an event records, if it records one. -/
def suspensionOf (event : StoredEvent) : Suspensions :=
  match event.payload with
  | some (.run (.hostSuspended p)) => [⟨event.timestamp, fromMillis p.sleptMs⟩]
  | _ => []

/-- Every suspension a log records, oldest first. -/
def suspensionsOf (log : List StoredEvent) : Suspensions := log.flatMap suspensionOf

/-- `b` stands no earlier than `a`, and a suspension `b` records fits in the gap between them. -/
def Follows (a b : StoredEvent) : Prop :=
  a.timestamp ≤ b.timestamp ∧ ∀ s ∈ suspensionOf b, a.timestamp ≤ s.fellAsleep

instance : DecidableRel Follows := fun a b =>
  inferInstanceAs (Decidable (_ ∧ ∀ s ∈ suspensionOf b, _))

theorem suspensionOf_woke {event : StoredEvent} {s : Suspension} (h : s ∈ suspensionOf event) :
    s.wokeAt = event.timestamp := by
  unfold suspensionOf at h
  split at h
  · rw [List.mem_singleton.mp h]
  · cases h

/-- A suspension that fits in the gap before its event takes as much of that gap as of any longer
    stretch ending there. -/
theorem asleepBetween_suspensionOf {event : StoredEvent} {previous since : Int}
    (hsince : since ≤ previous)
    (hfits : ∀ s ∈ suspensionOf event, previous ≤ s.fellAsleep) :
    (suspensionOf event).asleepBetween since event.timestamp =
      (suspensionOf event).asleepBetween previous event.timestamp := by
  unfold Suspensions.asleepBetween
  congr 1
  refine List.map_congr_left fun s hs => ?_
  have hle := hfits s hs
  unfold Suspension.inside
  rw [max_eq_left hle, max_eq_left (hsince.trans hle)]

/-- Such a suspension takes no more of its gap than there is. -/
theorem asleepBetween_suspensionOf_le {event : StoredEvent} {previous : Int}
    (hfits : ∀ s ∈ suspensionOf event, previous ≤ s.fellAsleep) :
    (suspensionOf event).asleepBetween previous event.timestamp ≤
      wallBetween previous event.timestamp := by
  unfold suspensionOf at hfits ⊢
  split
  · simp only [Suspensions.asleepBetween, List.map_cons, List.map_nil, List.sum_cons, List.sum_nil,
      Nat.add_zero, Suspension.inside, wallBetween]
    omega
  · exact Nat.zero_le _

theorem wallBetween_add {a b c : Int} (hab : a ≤ b) (hbc : b ≤ c) :
    wallBetween a b + wallBetween b c = wallBetween a c := by
  unfold wallBetween; omega

namespace RunState

/-! ## What a step books -/

theorem suspend_suspensions (s : RunState) (event : StoredEvent) :
    (s.suspend event).run.suspensions = s.run.suspensions ++ suspensionOf event := by
  cases hp : event.payload with
  | none => simp [suspend, suspensionOf, hp]
  | some payload =>
    cases payload with
    | run e =>
      cases e with
      | hostSuspended p => simp [suspend, suspensionOf, hp, RunLedger.apply]
      | _ => simp [suspend, suspensionOf, hp]
    | _ => simp [suspend, suspensionOf, hp]

theorem taken_suspensions {s : RunState} {event : StoredEvent} (h : s.refuse event = .ok ()) :
    (s.taken event).run.suspensions = s.run.suspensions ++ suspensionOf event := by
  rw [taken_run_ledger h]
  unfold suspensionOf
  cases hp : event.payload with
  | none => simp
  | some payload =>
    cases payload with
    | run e =>
      cases e with
      | hostSuspended p => rfl
      | _ =>
        simp only [List.append_nil]
        exact s.run.apply_suspensions _ _ (fun p hc => nomatch hc)
    | _ => simp

theorem taken_clock {s : RunState} {event : StoredEvent} (h : s.refuse event = .ok ()) :
    ∃ o, (s.taken event).clock = s.clock.book event o (s.run.suspensions ++ suspensionOf event) := by
  have hclock : (s.suspend event).clock = s.clock := by unfold suspend; split <;> rfl
  refine ⟨Open.of (s.suspend event).run (s.suspend event).nodes (s.suspend event).gates
    (s.suspend event).tasks, ?_⟩
  rw [(taken_frame h).1, ← suspend_suspensions, ← hclock]
  rfl

/-! ## The invariant -/

/-- What the clock has booked between `first` and `last`: the buckets and the sleep together are
    the wall-clock. -/
structure Booked (s : RunState) (first last : Int) : Prop where
  firstAt : s.clock.firstAt = some first
  lastAt : s.clock.lastAt = some last
  order : first ≤ last
  woke : ∀ p ∈ s.run.suspensions, p.wokeAt ≤ last
  rails : s.clock.booked.rails = 0
  total : s.clock.booked.total + s.run.suspensions.asleepBetween first last = wallBetween first last

/-- The first event opens the window, and nothing before it is in the window. -/
theorem booked_first {event : StoredEvent} (h : refuse {} event = .ok ()) :
    (taken {} event).Booked event.timestamp event.timestamp := by
  obtain ⟨o, hclock⟩ := taken_clock h
  have hwoke : ∀ p ∈ (taken {} event).run.suspensions, p.wokeAt ≤ event.timestamp := by
    intro p hp
    rw [taken_suspensions h] at hp
    exact le_of_eq (suspensionOf_woke (by simpa using hp))
  have hbook := Timeline.book_first (t := {}) rfl event o ([] ++ suspensionOf event)
  constructor
  · rw [hclock]; exact hbook.1
  · rw [hclock]; exact Timeline.book_lastAt ..
  · exact le_refl _
  · exact hwoke
  · rw [hclock, Timeline.book_rails]
  · rw [Suspensions.asleepBetween_of_woke hwoke, hclock]
    exact hbook.2.trans (by simp [TimeSpent.total, wallBetween])

/-- **Each later event books its stretch, once.** -/
theorem booked_step {s : RunState} {event : StoredEvent} {first last : Int}
    (hr : s.refuse event = .ok ()) (h : s.Booked first last) (hle : last ≤ event.timestamp)
    (hfits : ∀ p ∈ suspensionOf event, last ≤ p.fellAsleep) :
    (s.taken event).Booked first event.timestamp := by
  obtain ⟨o, hclock⟩ := taken_clock hr
  have hspans := taken_suspensions hr
  have hbook := Timeline.book_next h.lastAt event o (s.run.suspensions ++ suspensionOf event)
  constructor
  · rw [hclock, hbook.1]; exact h.firstAt
  · rw [hclock]; exact Timeline.book_lastAt ..
  · exact h.order.trans hle
  · intro p hp
    rw [hspans, List.mem_append] at hp
    rcases hp with hp | hp
    · exact (h.woke p hp).trans hle
    · exact le_of_eq (suspensionOf_woke hp)
  · rw [hclock, Timeline.book_rails]; exact h.rails
  · -- the stretch leaves out the new sleep alone; the window adds it to the sleep before
    have hnew := asleepBetween_suspensionOf h.order hfits
    have hroom := asleepBetween_suspensionOf_le hfits
    have hold := Suspensions.asleepBetween_of_woke h.woke event.timestamp
    have hkept := Suspensions.asleepBetween_of_longer h.woke hle first
    have hwall := wallBetween_add h.order hle
    have htotal := h.total
    rw [hclock, hbook.2, hspans]
    simp only [Suspensions.awakeBetween, Suspensions.asleepBetween_append]
    omega

/-- **A run of a log in order keeps its time booked.** -/
theorem booked_steps {s t : RunState} {log : List StoredEvent} (h : RunSteps s log t)
    {before : StoredEvent} {first : Int} (hs : s.Booked first before.timestamp)
    (hlog : (before :: log).IsChain Follows) :
    ∃ last, (before :: log).getLast? = some last ∧ t.Booked first last.timestamp := by
  induction h generalizing before with
  | nil s => exact ⟨before, rfl, hs⟩
  | @cons s u t event rest he _ ih =>
    obtain ⟨hr, rfl⟩ := apply_ok_iff.mp he
    obtain ⟨hfollows, hrest⟩ := List.isChain_cons_cons.mp hlog
    obtain ⟨last, hlast, ht⟩ := ih (booked_step hr hs hfollows.1 hfollows.2) hrest
    exact ⟨last, by rw [List.getLast?_cons_cons]; exact hlast, ht⟩

theorem steps_suspensions {s t : RunState} {log : List StoredEvent} (h : RunSteps s log t) :
    t.run.suspensions = s.run.suspensions ++ suspensionsOf log := by
  induction h with
  | nil s => simp [suspensionsOf]
  | cons he _ ih =>
    obtain ⟨hr, rfl⟩ := apply_ok_iff.mp he
    rw [ih, taken_suspensions hr]
    simp [suspensionsOf]

theorem steps_formatted {s t : RunState} {log : List StoredEvent} (h : RunSteps s log t) :
    t.clock.formatted = s.clock.formatted + (log.map formatting).sum := by
  induction h with
  | nil s => simp
  | @cons s u t event rest he _ ih =>
    obtain ⟨hr, rfl⟩ := apply_ok_iff.mp he
    obtain ⟨o, hclock⟩ := taken_clock hr
    have hbook : (s.taken event).clock.formatted = s.clock.formatted + formatting event := by
      rw [hclock]
      unfold Timeline.book
      cases s.clock.lastAt <;> rfl
    rw [ih, hbook, List.map_cons, List.sum_cons, Nat.add_assoc]

/-- What the buckets hold at a closing instant, the open stretch booked. -/
def stretchedAt (s : RunState) (til : Int) : TimeSpent :=
  s.clock.stretched (Open.of s.run s.nodes s.gates s.tasks) s.run.suspensions (some til)

/-- The stretch that is still open books what a closing instant leaves after the last event. -/
theorem booked_stretched {s : RunState} {first last til : Int} (h : s.Booked first last)
    (hle : last ≤ til) :
    (s.stretchedAt til).rails = 0 ∧
      (s.stretchedAt til).total + s.run.suspensions.asleepBetween first til =
        wallBetween first til := by
  have hopen := Suspensions.asleepBetween_of_woke h.woke til
  have hkept := Suspensions.asleepBetween_of_longer h.woke hle first
  have hwall := wallBetween_add h.order hle
  have htotal := h.total
  unfold stretchedAt Timeline.stretched
  rw [h.lastAt]
  refine ⟨(TimeSpent.add_rails ..).trans h.rails, ?_⟩
  simp only [TimeSpent.total_add, Suspensions.awakeBetween]
  omega

/-- **Every stretch of an accepted log's time is booked exactly once**: the buckets and the sleep
    make up the wall-clock, so the total is the time the run was awake; and the formatting time is
    moved out of the working time, as far as there is any. -/
theorem time_booked_once {log : List StoredEvent} (h : Accepted log) (hlog : log.IsChain Follows)
    {first last : StoredEvent} (hfirst : log.head? = some first)
    (hlast : log.getLast? = some last) {til : Int} (htil : last.timestamp ≤ til) :
    let spent := (derive log).timeSpent (some til)
    let stretched := (derive log).stretchedAt til
    spent.total + (suspensionsOf log).asleepBetween first.timestamp til =
        wallBetween first.timestamp til ∧
      spent.total = (suspensionsOf log).awakeBetween first.timestamp til ∧
      (derive log).elapsed (some til) = some spent.total ∧
      spent.rails = min (log.map formatting).sum stretched.working ∧
      spent.working + spent.rails = stretched.working := by
  have hrun := steps_of_accepted h
  have hspans : (derive log).run.suspensions = suspensionsOf log := steps_suspensions hrun
  have hformat : (derive log).clock.formatted = (log.map formatting).sum :=
    (steps_formatted hrun).trans (Nat.zero_add _)
  have hbooked : (derive log).Booked first.timestamp last.timestamp := by
    cases log with
    | nil => cases hfirst
    | cons event rest =>
      obtain rfl : event = first := Option.some.inj hfirst
      obtain ⟨u, he, hrest⟩ := hrun.cons_inv
      obtain ⟨hr, rfl⟩ := apply_ok_iff.mp he
      obtain ⟨l, hl, ht⟩ := booked_steps hrest (booked_first hr) hlog
      rw [hl] at hlast
      rw [← Option.some.inj hlast]
      exact ht
  obtain ⟨hrails, htotal⟩ := booked_stretched hbooked htil
  have hspent : ((derive log).timeSpent (some til)).total = ((derive log).stretchedAt til).total :=
    Timeline.spent_total _ _ _ _ hrails
  rw [hspans] at htotal
  dsimp only
  have hawake : ((derive log).timeSpent (some til)).total =
      (suspensionsOf log).awakeBetween first.timestamp til := by
    unfold Suspensions.awakeBetween; omega
  refine ⟨by omega, hawake, ?_, ?_, ?_⟩
  · rw [hawake, elapsed, Timeline.window, hbooked.firstAt, hspans]
    rfl
  · rw [← hformat]
    rfl
  · change ((derive log).stretchedAt til).working -
      min (derive log).clock.formatted ((derive log).stretchedAt til).working +
      min (derive log).clock.formatted ((derive log).stretchedAt til).working = _
    omega

/-- Twenty milliseconds, five of them asleep: fifteen are booked. -/
theorem time_booked_once_slept :
    ((derive
      [⟨"", 1, 0, some "a", .known (.node (.started ⟨1, none, none⟩))⟩,
        ⟨"", 2, 10000000, none, .known (.run (.hostSuspended ⟨5⟩))⟩,
        ⟨"", 3, 15000000, some "a", .known (.session (.writeFormatted ⟨"s", 2⟩))⟩]).timeSpent
      (some 20000000)).total + 5000000 = 20000000 :=
  (time_booked_once
    (show Accepted [_, _, _] by decide) (by decide) rfl rfl (show (_ : Int) ≤ 20000000 by decide)).1

end RunState

end Yunta
