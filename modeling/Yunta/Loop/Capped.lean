/-
  The cap on the engine's grants, over the loops of a run that work side by side.

  1. **Runs** — a loop opens a batch with a window seeded from the log, decides its requests against
     that window, and writes each grant when the batch integrates.  A grant whose attempt is cut or
     whose dispatch fails is never written, and a crash leaves every open batch.

  2. **Counting** — `Kept`: the log and the grants still to be written hold no more than were made,
     and no window counts more than that (`kept_step`).

  3. **Main result** — `max_per_run`: where each decision left to the cap is made below it, or
     against a window that counted every grant made (`Counts`), the cap holds; and in such a run a
     decision grants past the cap exactly where the next one would not.
-/
import Yunta.Lib.Machine
import Yunta.Replay.Refusal
import Yunta.Scope.Window
import Yunta.Tasks.Recording

set_option linter.unusedVariables false

namespace Yunta.Cap

open Expansion Machine

/-! ## Runs -/

/-- Whether an event is a grant the engine made. -/
def isEngineGrant (event : StoredEvent) : Bool :=
  match event.payload with
  | some (.scope (.granted p)) => !p.decidedBy.isPerson
  | _ => false

/-- The engine grants a log holds. -/
def engineGrants (log : List StoredEvent) : Nat := (log.filter isEngineGrant).length

/-- The log, the window of each loop's open batch, the grants integration still has to write, and
    how many the engine made in the run. -/
structure Live where
  log : List StoredEvent
  windows : NodeId → Option GrantWindow
  unwritten : List (NodeId × ScopeExpansionGrantedPayload)
  made : Nat

/-- One decision of a batch: a task's ask, under its bounds, on the files its attempt touched. -/
structure Asked (builds : List ScopeGlob → Bool) where
  task : TaskId
  ask : Ask
  bounds : Bounds builds
  touched : List String

inductive Act (builds : List ScopeGlob → Bool) where
  /-- A loop opens a batch. -/
  | start (node : NodeId)
  | decide (node : NodeId) (asked : Asked builds)
  /-- Integration writes a grant. -/
  | write (i : Nat)
  /-- A grant's attempt was cut, or its dispatch failed. -/
  | discard (i : Nat)
  | close (node : NodeId)
  | crash
  /-- Any other event of the run. -/
  | event (event : StoredEvent)

section
variable {builds : List ScopeGlob → Bool} (selects : ScopeGlob → String → Bool) (runLog : RunLog)
  (cap : Nat)

/-- The grant a decision makes, as the log keeps it. -/
def grantOf (task : TaskId) : Decision → List ScopeExpansionGrantedPayload
  | .grant paths decidedBy => [⟨some task, decidedBy, paths⟩]
  | _ => []

def step (live : Live) : Act builds → Option Live
  | .start node =>
    match live.windows node with
    | some _ => none
    | none =>
      let window := GrantWindow.seeded (derive live.log).grants.granted
      some { live with windows := Function.update live.windows node (some window) }
  | .decide node asked =>
    match live.windows node with
    | none => none
    | some window =>
      if asked.bounds.maxPerRun = some cap then
        let decided := window.expand selects asked.ask asked.bounds asked.touched
        let grants := grantOf asked.task decided.1.1
        some { live with
          windows := Function.update live.windows node (some decided.2)
          unwritten := live.unwritten ++ grants.map fun grant => (node, grant)
          made := live.made + grants.length }
      else none
  | .write i =>
    match live.unwritten[i]? with
    | none => none
    | some (node, grant) =>
      some { live with
        log := runLog.record live.log (some node) (.scope (.granted grant))
        unwritten := live.unwritten.eraseIdx i }
  | .discard i => some { live with unwritten := live.unwritten.eraseIdx i }
  | .close node =>
    some { live with
      windows := Function.update live.windows node none
      unwritten := live.unwritten.filter fun entry => entry.1 ≠ node }
  | .crash => some { live with windows := fun _ => none, unwritten := [] }
  | .event event =>
    if isEngineGrant event = false ∧ Accepted (live.log ++ [event]) then
      some { live with log := live.log ++ [event] }
    else none

/-- A run before its first event. -/
def born : Live := ⟨[], fun _ => none, [], 0⟩

/-- **A decision that counts**: it is not left to the cap, or the run made fewer grants than the
    cap, or the batch's window counted every one the run made. -/
def Counts (live : Live) : Act builds → Prop
  | .decide node asked => leftToCap selects asked.ask asked.bounds asked.touched = true →
      live.made < cap ∨ ∀ window ∈ live.windows node, window.granted = live.made
  | _ => True

/-! ## Counting -/

/-- The count replay keeps is the grants the log holds. -/
theorem taken_granted {s : RunState} {event : StoredEvent} (h : s.refuse event = .ok ()) :
    (s.taken event).grants.granted = s.grants.granted + if isEngineGrant event then 1 else 0 := by
  cases hp : event.payload with
  | none => rw [RunState.taken_unknown hp]; simp [isEngineGrant, hp, RunState.counted]
  | some payload =>
    cases payload with
    | scope e =>
      rw [RunState.taken_scope h hp]
      simp only [RunState.refuse, hp] at h
      have hok := RunState.scope_ok (s := s) h
      cases e with
      | granted p =>
        simp only [GrantLedger.apply] at hok ⊢
        have hwiden : (s.grants.widen p event.meta_).1.granted = s.grants.granted := by
          unfold GrantLedger.widen
          split <;> rfl
        rcases hw : s.grants.widen p event.meta_ with ⟨l, _ | _⟩
        · rw [hw] at hok
          cases hok
        · rw [hw] at hwiden
          simp only [isEngineGrant, hp]
          rw [← hwiden]
          cases p.decidedBy.isPerson <;> rfl
      | denied p =>
        have hanswer : (s.grants.answerDenial p event.meta_).1.granted = s.grants.granted := by
          unfold GrantLedger.answerDenial
          split <;> rfl
        simp only [isEngineGrant, hp, GrantLedger.apply]
        rcases hw : s.grants.answerDenial p event.meta_ with ⟨l, _ | _⟩ <;>
          (rw [hw] at hanswer; simpa using hanswer)
      | _ => simp [isEngineGrant, hp, GrantLedger.apply]
    | run e => rw [RunState.taken_run hp]; simp [isEngineGrant, hp, RunState.counted]
    | node e => rw [RunState.taken_node hp]; simp [isEngineGrant, hp, RunState.counted]
    | session e => rw [RunState.taken_session h hp]; simp [isEngineGrant, hp, RunState.counted]
    | tasks e => rw [RunState.taken_task h hp]; simp [isEngineGrant, hp, RunState.counted]
    | findings e => rw [RunState.taken_finding hp]; simp [isEngineGrant, hp, RunState.counted]
    | artifacts e => rw [RunState.taken_artifact hp]; simp [isEngineGrant, hp, RunState.counted]
    | gates e => rw [RunState.taken_gate h hp]; simp [isEngineGrant, hp, RunState.counted]
    | children e => rw [RunState.taken_child hp]; simp [isEngineGrant, hp, RunState.counted]

theorem engineGrants_snoc (log : List StoredEvent) (event : StoredEvent) :
    engineGrants (log ++ [event]) = engineGrants log + if isEngineGrant event then 1 else 0 := by
  rw [engineGrants, List.filter_append, List.length_append]
  cases h : isEngineGrant event <;> simp [engineGrants, h]

theorem derive_granted {log : List StoredEvent} (h : Accepted log) :
    (derive log).grants.granted = engineGrants log := by
  induction log using List.reverseRecOn with
  | nil => rfl
  | append_singleton log event ih =>
    obtain ⟨hrefuse, hderive⟩ := derive_snoc h
    rw [hderive, taken_granted hrefuse, ih (accepted_of_append h), engineGrants_snoc]

variable {selects runLog cap}

/-- What every run keeps of its counts. -/
structure Kept (live : Live) : Prop where
  accepted : Accepted live.log
  engine : ∀ entry ∈ live.unwritten, entry.2.taskId.isSome ∧ entry.2.decidedBy.isPerson = false
  logged : engineGrants live.log + live.unwritten.length ≤ live.made
  counted : ∀ node, ∀ window ∈ live.windows node, window.granted ≤ live.made

/-- What one decision adds: at most one grant, of the engine's, for the task. -/
theorem grantOf_expand (selects : ScopeGlob → String → Bool) (window : GrantWindow)
    (asked : Asked builds) :
    (∀ grant ∈ grantOf asked.task
        (window.expand selects asked.ask asked.bounds asked.touched).1.1,
      grant.taskId.isSome ∧ grant.decidedBy.isPerson = false) ∧
    (grantOf asked.task (window.expand selects asked.ask asked.bounds asked.touched).1.1).length =
      if (window.expand selects asked.ask asked.bounds asked.touched).1.1.isGrant then 1 else 0 := by
  have hdecision := window.expand_decision selects asked.ask asked.bounds asked.touched
  rw [hdecision]
  cases hd : expand selects asked.ask asked.bounds asked.touched window.granted with
  | grant paths decidedBy =>
    refine ⟨fun grant hgrant => ?_, rfl⟩
    obtain rfl := List.mem_singleton.mp hgrant
    exact ⟨rfl, expand_engine hd⟩
  | escalate paths because => exact ⟨fun grant hgrant => absurd hgrant List.not_mem_nil, rfl⟩
  | deny denial => exact ⟨fun grant hgrant => absurd hgrant List.not_mem_nil, rfl⟩

/-- A window put for one loop counts what it counts, and the others are as they were. -/
theorem counted_update {windows : NodeId → Option GrantWindow} {made made' : Nat} {node : NodeId}
    {put : Option GrantWindow} (h : ∀ node, ∀ window ∈ windows node, window.granted ≤ made)
    (hput : ∀ window ∈ put, window.granted ≤ made') (hle : made ≤ made') :
    ∀ other, ∀ window ∈ Function.update windows node put other, window.granted ≤ made' := by
  intro other window hwindow
  by_cases hother : other = node
  · subst hother
    rw [Function.update_self] at hwindow
    exact hput window hwindow
  · rw [Function.update_of_ne hother] at hwindow
    exact (h other window hwindow).trans hle

/-- **Every step keeps the counts.** -/
theorem kept_step {live live' : Live} {act : Act builds} (h : Kept live)
    (hstep : step selects runLog cap live act = some live') : Kept live' := by
  cases act with
  | start node =>
    simp only [step] at hstep
    split at hstep
    · cases hstep
    · obtain rfl := Option.some.inj hstep
      have hlogged := h.logged
      refine ⟨h.accepted, h.engine, h.logged, counted_update h.counted ?_ le_rfl⟩
      rintro window ⟨⟩
      show (derive live.log).grants.granted ≤ live.made
      rw [derive_granted h.accepted]
      omega
  | decide node asked =>
    simp only [step] at hstep
    split at hstep
    · cases hstep
    next window hwindow =>
    split at hstep
    · obtain rfl := Option.some.inj hstep
      obtain ⟨hengine, hlength⟩ := grantOf_expand selects window asked
      have hlogged := h.logged
      have hcount := h.counted node window hwindow
      have hraised := window.expand_window selects asked.ask asked.bounds asked.touched
      refine ⟨h.accepted, fun entry hentry => ?_, ?_, counted_update h.counted ?_ (by simp)⟩
      · rcases List.mem_append.mp hentry with hentry | hentry
        · exact h.engine entry hentry
        · obtain ⟨grant, hgrant, rfl⟩ := List.mem_map.mp hentry
          exact hengine grant hgrant
      · show engineGrants live.log + (live.unwritten ++ _).length ≤ live.made + _
        rw [List.length_append, List.length_map]
        omega
      · rintro _ ⟨⟩
        show _ ≤ live.made + _
        rw [hraised, hlength]
        omega
    · cases hstep
  | write i =>
    simp only [step] at hstep
    split at hstep
    · cases hstep
    next node grant hget =>
    obtain rfl := Option.some.inj hstep
    obtain ⟨hlt, hentry⟩ := List.getElem?_eq_some_iff.mp hget
    obtain ⟨htask, hperson⟩ := h.engine (node, grant) (hentry ▸ List.getElem_mem hlt)
    have hrefuse : (derive live.log).refuse (runLog.next live.log (some node)
        (.scope (.granted grant))) = .ok () := by
      simp [RunState.refuse, RunState.refuseScope, GrantLedger.namesTask, htask]
    have hderive : derive (live.log ++ [runLog.next live.log (some node)
        (.scope (.granted grant))]) = (derive live.log).taken (runLog.next live.log (some node)
        (.scope (.granted grant))) := by
      rw [derive_append h.accepted, RunState.deriveFrom, RunState.apply_eq, hrefuse]
      rfl
    refine ⟨?_, fun entry hmem => h.engine entry (List.mem_of_mem_eraseIdx hmem), ?_, h.counted⟩
    · show (derive (live.log ++ _)).broken = none
      rw [hderive, (RunState.taken_frame hrefuse).2.2]
      exact h.accepted
    · have hlogged := h.logged
      show engineGrants (live.log ++ _) + (live.unwritten.eraseIdx i).length ≤ live.made
      rw [engineGrants_snoc, List.length_eraseIdx, if_pos hlt]
      split <;> omega
  | discard i =>
    obtain rfl := Option.some.inj hstep
    have hlogged := h.logged
    have hless := List.length_eraseIdx_le live.unwritten i
    refine ⟨h.accepted, fun entry hmem => h.engine entry (List.mem_of_mem_eraseIdx hmem), ?_,
      h.counted⟩
    show engineGrants live.log + (live.unwritten.eraseIdx i).length ≤ live.made
    omega
  | close node =>
    obtain rfl := Option.some.inj hstep
    have hlogged := h.logged
    have hless := List.length_filter_le (fun entry => decide (entry.1 ≠ node)) live.unwritten
    refine ⟨h.accepted, fun entry hmem => h.engine entry (List.mem_filter.mp hmem).1, ?_,
      counted_update h.counted (fun window hnone => absurd hnone (Option.not_mem_none window))
        le_rfl⟩
    show engineGrants live.log + (live.unwritten.filter _).length ≤ live.made
    omega
  | crash =>
    obtain rfl := Option.some.inj hstep
    have hlogged := h.logged
    refine ⟨h.accepted, fun entry hmem => absurd hmem List.not_mem_nil, ?_,
      fun node window hnone => absurd hnone (Option.not_mem_none window)⟩
    show engineGrants live.log + 0 ≤ live.made
    omega
  | event event =>
    simp only [step] at hstep
    split at hstep
    next hevent =>
      obtain rfl := Option.some.inj hstep
      refine ⟨hevent.2, h.engine, ?_, h.counted⟩
      have hlogged := h.logged
      show engineGrants (live.log ++ [event]) + live.unwritten.length ≤ live.made
      rw [engineGrants_snoc, hevent.1]
      simpa using hlogged
    · cases hstep

/-! ## The cap -/

/-- **A decision that counts grants only below the cap**, and one that does not grants past it. -/
theorem grants_below_iff {live : Live} (h : Kept live) (hmade : live.made ≤ cap) {node : NodeId}
    {window : GrantWindow} (hwindow : live.windows node = some window) {asked : Asked builds}
    (hcap : asked.bounds.maxPerRun = some cap) :
    ((window.expand selects asked.ask asked.bounds asked.touched).1.1.isGrant = true →
      live.made < cap) ↔ Counts selects cap live (.decide node asked) := by
  have hle := h.counted node window hwindow
  rw [window.expand_decision, isGrant_iff hcap]
  constructor
  · intro hbelow hleft
    rw [or_iff_not_imp_left]
    rintro hreached other hother
    obtain rfl := Option.some.inj (hwindow.symm.trans hother)
    have hnot : ¬ window.granted < cap := fun hlt => hreached (hbelow ⟨hleft, hlt⟩)
    omega
  · rintro hcounts ⟨hleft, hlt⟩
    rcases hcounts hleft with hbelow | hsees
    · exact hbelow
    · have hsame := hsees window hwindow
      omega

/-- A step whose decision counts keeps the grants made within the cap. -/
theorem made_step {live live' : Live} {act : Act builds} (h : Kept live) (hmade : live.made ≤ cap)
    (hcounts : Counts selects cap live act) (hstep : step selects runLog cap live act = some live') :
    live'.made ≤ cap := by
  cases act with
  | decide node asked =>
    simp only [step] at hstep
    split at hstep
    · cases hstep
    next window hwindow =>
    split at hstep
    next hcap =>
      obtain rfl := Option.some.inj hstep
      have hbelow := (grants_below_iff h hmade hwindow hcap).mpr hcounts
      obtain ⟨-, hlength⟩ := grantOf_expand selects window asked
      show live.made + _ ≤ cap
      rw [hlength]
      split
      · next hgrant =>
        have hlt := hbelow hgrant
        omega
      · omega
    · cases hstep
  | start node =>
    simp only [step] at hstep
    split at hstep
    · cases hstep
    · obtain rfl := Option.some.inj hstep
      exact hmade
  | write i =>
    simp only [step] at hstep
    split at hstep
    · cases hstep
    · obtain rfl := Option.some.inj hstep
      exact hmade
  | event event =>
    simp only [step] at hstep
    split at hstep
    · obtain rfl := Option.some.inj hstep
      exact hmade
    · cases hstep
  | discard i =>
    obtain rfl := Option.some.inj hstep
    exact hmade
  | close node =>
    obtain rfl := Option.some.inj hstep
    exact hmade
  | crash =>
    obtain rfl := Option.some.inj hstep
    exact hmade

/-- **The cap holds for the whole run**, whatever loops work side by side, whatever attempts are
    discarded and whenever it crashes, where every decision counts. -/
theorem max_per_run (selects : ScopeGlob → String → Bool) (runLog : RunLog) (cap : Nat)
    {live : Live}
    (h : Reached (step selects runLog cap : Live → Act builds → Option Live) (Counts selects cap)
      born live) :
    engineGrants live.log ≤ cap ∧ live.made ≤ cap ∧
      ∀ node, ∀ window ∈ live.windows node, ∀ asked : Asked builds,
        asked.bounds.maxPerRun = some cap →
        (((window.expand selects asked.ask asked.bounds asked.touched).1.1.isGrant = true →
          live.made < cap) ↔ Counts selects cap live (.decide node asked)) := by
  have hkept : Kept live ∧ live.made ≤ cap := by
    refine h.invariant (P := fun live => Kept live ∧ live.made ≤ cap) ⟨⟨rfl, ?_, le_rfl, ?_⟩, ?_⟩ ?_
    · exact fun entry hmem => absurd hmem List.not_mem_nil
    · exact fun node window hnone => nomatch hnone
    · exact Nat.zero_le cap
    · rintro live act live' ⟨hkept, hmade⟩ hcounts hstep
      exact ⟨kept_step hkept hstep, made_step hkept hmade hcounts hstep⟩
  have hlogged := hkept.1.logged
  refine ⟨by omega, hkept.2, fun node window hwindow asked hcap => ?_⟩
  exact grants_below_iff hkept.1 hkept.2 hwindow hcap

end

/-- A task's request whose red criterion leaves it to a cap of one. -/
def asking (task : TaskId) : Asked fun _ => true where
  task := task
  ask := .requested ["src/" ++ task] "adjacent" (some ⟨"cargo test", .red 1⟩)
  bounds := ⟨.rules, 5, some 1, .denying [], []⟩
  touched := []

/-- A run whose loops are capped at one grant. -/
abbrev stepOne : Live → Act (fun _ => true) → Option Live := step plainSelects {} 1

instance (selects : ScopeGlob → String → Bool) (cap : Nat) (live : Live)
    (act : Act fun _ => true) : Decidable (Counts selects cap live act) := by
  cases act with
  | decide node asked => exact inferInstanceAs (Decidable (_ → _ ∨ _))
  | _ => exact .isTrue trivial

/-- One loop's batch makes the grant and writes it; the next batch of another loop is held. -/
theorem max_per_run_inTurn :
    ∃ live, Reached stepOne (Counts plainSelects 1) born live ∧
      engineGrants live.log = 1 ∧ ∃ window, live.windows "b" = some window ∧
        (window.expand plainSelects (asking "u").ask (asking "u").bounds []).1.1 =
          .escalate ["src/u"] (.capExhausted 1 1) ∧ live.made ≤ 1 := by
  obtain ⟨live, hreached, hholds⟩ := exists_reached stepOne
    (Counts plainSelects 1) born [.start "a", .decide "a" (asking "t"), .write 0, .close "a",
      .start "b"] (fun live => engineGrants live.log = 1 ∧
        live.windows "b" = some (GrantWindow.seeded 1)) (by decide +kernel)
  obtain ⟨hone, hwindow⟩ := of_decide_eq_true hholds
  exact ⟨live, hreached, hone, _, hwindow, by decide +kernel,
    (max_per_run plainSelects {} 1 hreached).2.1⟩

/-- Two loops side by side each grant what the cap allows one of; and a crash before a grant is
    written lets the next batch grant again. -/
theorem not_max_per_run :
    (∃ live, Reached stepOne Free born live ∧ engineGrants live.log = 2) ∧
    ∃ live, Reached stepOne Free born live ∧ live.made = 1 ∧
      ∃ window, live.windows "a" = some window ∧
        (window.expand plainSelects (asking "t").ask (asking "t").bounds []).1.1 =
          .grant ["src/t"] .rule := by
  constructor
  · obtain ⟨live, hreached, hholds⟩ := exists_reached stepOne Free born
      [.start "a", .start "b", .decide "a" (asking "t"), .decide "b" (asking "u"), .write 0,
        .write 0] (fun live => engineGrants live.log = 2) (by decide +kernel)
    exact ⟨live, hreached, of_decide_eq_true hholds⟩
  · obtain ⟨live, hreached, hholds⟩ := exists_reached stepOne Free born
      [.start "a", .decide "a" (asking "t"), .crash, .start "a"] (fun live => live.made = 1 ∧
        live.windows "a" = some (GrantWindow.seeded 0)) (by decide +kernel)
    obtain ⟨hmade, hwindow⟩ := of_decide_eq_true hholds
    exact ⟨live, hreached, hmade, _, hwindow, by decide +kernel⟩

end Yunta.Cap
