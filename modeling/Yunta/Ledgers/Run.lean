/-
  The run's own events, folded: where the run stands, its pauses and wakes, the measurement it
  holds, and the spans its host slept through.

  * `Suspensions` is the list of spans the host was suspended, in the order the log recorded
    them; `awakeBetween` is the one rule that leaves them out of a duration.
  * `RunLedger.apply` folds one event of the run.  A pause is dropped once a resume follows it;
    a measurement wakes the run only when the run took it.
-/
import Yunta.Events.Payloads
import Yunta.Lib.OrdMap

set_option linter.unusedVariables false

namespace Yunta

/-! ## Suspensions -/

/-- One suspension: it ended when the engine noticed the host awake, and lasted `slept`. -/
structure Suspension where
  wokeAt : Int
  slept : Nat
  deriving DecidableEq

namespace Suspension

/-- When the host went to sleep. -/
def fellAsleep (s : Suspension) : Int := s.wokeAt - s.slept

/-- How much of `[since, til]` the host spent in this suspension. -/
def inside (s : Suspension) (since til : Int) : Nat :=
  wallBetween (max s.fellAsleep since) (min s.wokeAt til)

end Suspension

/-- Every suspension the run's log records, oldest first. -/
abbrev Suspensions := List Suspension

namespace Suspensions

/-- How much of `[since, til]` the host spent suspended. -/
def asleepBetween (spans : Suspensions) (since til : Int) : Nat :=
  (spans.map fun s => s.inside since til).sum

/-- The time from `since` to `til` the host was awake: the wall-clock interval less every
    suspension inside it.  The source answers the interval itself when there is no suspension,
    which the subtraction below answers too. -/
def awakeBetween (spans : Suspensions) (since til : Int) : Nat :=
  wallBetween since til - spans.asleepBetween since til

/-- A suspension that ended before a stretch began took nothing of it. -/
theorem inside_of_woke {s : Suspension} {since til : Int} (h : s.wokeAt ≤ since) :
    s.inside since til = 0 := by
  unfold Suspension.inside wallBetween
  omega

/-- A suspension over before a stretch ends is inside the stretch as it is inside a longer one. -/
theorem inside_of_longer {s : Suspension} {since til til' : Int} (h : s.wokeAt ≤ til)
    (hle : til ≤ til') : s.inside since til' = s.inside since til := by
  unfold Suspension.inside
  rw [min_eq_left h, min_eq_left (h.trans hle)]

@[simp] theorem asleepBetween_nil (since til : Int) : asleepBetween [] since til = 0 := rfl

@[simp] theorem asleepBetween_append (spans more : Suspensions) (since til : Int) :
    asleepBetween (spans ++ more) since til =
      spans.asleepBetween since til + asleepBetween more since til := by
  simp [asleepBetween]

theorem asleepBetween_of_woke {spans : Suspensions} {since : Int}
    (h : ∀ s ∈ spans, s.wokeAt ≤ since) (til : Int) : spans.asleepBetween since til = 0 := by
  unfold asleepBetween
  refine List.sum_eq_zero ?_
  intro slept hmem
  obtain ⟨s, hs, rfl⟩ := List.mem_map.mp hmem
  exact inside_of_woke (h s hs)

theorem asleepBetween_of_longer {spans : Suspensions} {til til' : Int}
    (h : ∀ s ∈ spans, s.wokeAt ≤ til) (hle : til ≤ til') (since : Int) :
    spans.asleepBetween since til' = spans.asleepBetween since til := by
  unfold asleepBetween
  congr 1
  exact List.map_congr_left fun s hs => inside_of_longer (h s hs) hle

end Suspensions

/-! ## The run -/

/-- Where the run stands, as its own events say. -/
inductive RunPhaseRaw where
  | unborn | open_ | paused | closed
  deriving DecidableEq

/-- A promotion the run signalled. -/
structure Promotion where
  toMode : ModeName
  cause : Option PromotionCause
  at_ : Nat
  deriving DecidableEq

/-- How the run closed, as the `run_finished` that closed it recorded it. -/
structure Finished where
  terminal : TerminalState
  seq : Nat
  at_ : Int
  metrics : RunMetrics
  closedBy : Option Responder
  deriving DecidableEq

structure RunLedger where
  phase : RunPhaseRaw := .unborn
  mode : ModeName := ""
  leftOut : List NodeId := []
  finished : Option Finished := none
  /-- The latest pause, whether or not a resume came after it. -/
  lastPause : Option (PauseReason × Nat) := none
  resumedAfter : Option Nat := none
  promotion : Option Promotion := none
  baseline : Option BaselineCapturedPayload := none
  held : OrdMap CommandName BaselineHeldPayload := ∅
  suspensions : Suspensions := []
  changes : Option ChangesCountedPayload := none
  woken : Bool := false
  invocations : List (Nat × Option ExecutionEnvironment) := []
  opensOnBase : Bool := false
  checkout : Option PathBuf := none
  movedAt : Option Nat := none
  boundAt : Option Nat := none
  /-- The tree the latest wake found the run at, with the seq of that wake. -/
  wokeOn : Option (Nat × TreeId) := none
  resumedAt : Option Int := none
  deriving DecidableEq

namespace RunLedger

/-- Why the run is parked, when it is: a `run_paused` with no `run_resumed` after it. -/
def paused (run : RunLedger) : Option (PauseReason × Nat) :=
  run.lastPause.filter fun pause => run.resumedAfter.all fun resumed => resumed < pause.2

/-- Where the latest `run_paused` sits. -/
def lastPausedAt (run : RunLedger) : Option Nat := run.lastPause.map (·.2)

/-- The run's birth. -/
def created (run : RunLedger) (p : RunCreatedPayload) (m : EventMeta) : RunLedger :=
  { run with
    phase := .open_
    mode := p.mode
    leftOut := p.leftOut
    opensOnBase := p.opensOnBase
    checkout := p.checkout
    boundAt := p.checkout.map fun _ => m.seq
    invocations := run.invocations ++ [(m.seq, p.environment)] }

/-- A wake, which moves to another checkout when it names one. -/
def resumed (run : RunLedger) (p : RunResumedPayload) (m : EventMeta) : RunLedger :=
  let run :=
    { run with
      woken := true
      phase := .open_
      resumedAfter := some m.seq
      resumedAt := some m.at_
      wokeOn := p.tree.map fun tree => (m.seq, tree)
      invocations := run.invocations ++ [(m.seq, p.environment)] }
  match p.checkout with
  | some checkout =>
    { run with checkout := some checkout, movedAt := some m.seq, boundAt := some m.seq }
  | none => run

/-- Folds one of the run's own events. -/
def apply (run : RunLedger) (event : RunEvent) (m : EventMeta) : RunLedger :=
  match event with
  | .created p => run.created p m
  | .paused p => { run with woken := true, phase := .paused, lastPause := some (p.pause, m.seq) }
  | .resumed p => run.resumed p m
  | .moved p => { run with checkout := some p.checkout, boundAt := some m.seq }
  | .finished p =>
    { run with
      phase := .closed
      finished := some ⟨p.terminalState, m.seq, m.at_, p.metrics, p.closedBy⟩ }
  | .baselineCaptured p =>
    { run with woken := run.woken || p.origin == .measured, baseline := some p }
  | .baselineHeld p =>
    { run with
      woken := run.woken || p.origin == .measured
      held := run.held.insert p.name p }
  | .hostSuspended p =>
    { run with suspensions := run.suspensions ++ [⟨m.at_, fromMillis p.sleptMs⟩] }
  | .changesCounted p => { run with changes := some p }
  | .promotionSignaled p => { run with promotion := some ⟨p.suggestedMode, p.cause, m.seq⟩ }

/-- Only a recorded suspension lengthens the list of them. -/
theorem apply_suspensions (run : RunLedger) (event : RunEvent) (m : EventMeta)
    (h : ∀ p, event ≠ .hostSuspended p) : (run.apply event m).suspensions = run.suspensions := by
  cases event with
  | hostSuspended p => exact absurd rfl (h p)
  | resumed p =>
    cases hc : p.checkout <;> simp [apply, resumed, hc]
  | _ => rfl

end RunLedger

end Yunta
