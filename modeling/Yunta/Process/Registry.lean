/-
  A run's process registry: the file that lets another process find what a run left running.

  1. **The file** — `EngineProcessFile` names the engine that drives the run, the process groups it
     owns, and the person it is asking.  `engineLiveness` is what a reader elsewhere says of it.

  2. **The engines of a run** — one after the other, each with its own copy of the file in memory:
     `Step` is what one does, and what befalls it.  `commit` changes the copy and writes it whole; a
     write may fail, an engine may crash between any two steps, and the next one starts from the file
     it finds.  An engine whose first write fails drops its copy, which clears the file as one that
     leaves does, and drives the run without one.

  3. **What holds over any run** — `registered_stays`: a group whose registration reached the file is
     named by it from then on, through failed writes, crashes and engines that follow, until it is
     unregistered or a look finds no member of it running.  `live_engine_alive`: a reader never says
     of an engine that lives and holds its registry that nothing drives the run.

  Both rest on what the copy and the file say of one group or one engine (`Keeps`, `Own`): a step
  changes the copy first, and the file is always an earlier copy.
-/
import Yunta.Lock.Acquire
import Yunta.Events.Basics

set_option linter.unusedVariables false

namespace Yunta.ProcessRegistry

open Lock (Pid Instant Liveness OwnerProbe)

/-! ## The file -/

/-- What an engine asks a person at its terminal. -/
structure Asked where
  node : Option NodeId
  since : Instant
  deriving DecidableEq

structure EngineProcessFile where
  enginePid : Pid
  startedAt : Instant
  processGroups : List Pid
  asking : Option Asked
  deriving DecidableEq

/-- A run's registry, as this binary reads it. -/
inductive Registry where
  | absent
  | read (file : EngineProcessFile)
  | corrupt
  deriving DecidableEq

/-- The groups a registry names. -/
def Registry.named : Registry → List Pid
  | read file => file.processGroups
  | _ => []

/-- The groups that run, or that cannot be inspected. -/
def runningGroups (groupRuns : Pid → Option Bool) (groups : List Pid) : List Pid :=
  groups.filter fun group => (groupRuns group).getD true

inductive EngineLiveness where
  | alive | dead | unrecorded | unknown
  deriving DecidableEq

/-- Whether the engine a registry names is still the process that wrote it: what the isolation lock
    asks of its own holder. -/
def EngineProcessFile.liveness (file : EngineProcessFile) (probe : OwnerProbe) : Liveness :=
  Lock.holderState ⟨Lock.LockOwner.SCHEMA_VERSION, file.enginePid, file.startedAt⟩ probe

def engineLiveness (registry : Registry) (probe : OwnerProbe) : EngineLiveness :=
  match registry with
  | .absent => .unrecorded
  | .corrupt => .unknown
  | .read file =>
    match file.liveness probe with
    | .alive => .alive
    | .dead => .dead
    | .unknown => .unknown

/-! ## The engines of a run -/

/-- The engine that drives a run: its process, as its own record names it, and its copy of the file,
    where it could write one when it came. -/
structure Engine where
  pid : Pid
  startedAt : Instant
  registry : Option EngineProcessFile

/-- A run's file, and the engine that drives the run, while one does. -/
structure World where
  disk : Registry
  engine : Option Engine

/-- The copy of the file that the engine driving the run holds. -/
def World.copy (world : World) : Option EngineProcessFile := world.engine.bind (·.registry)

/-- The file once a copy of it was written whole, where the write succeeds. -/
def written (disk : Registry) (state : EngineProcessFile) (writes : Bool) : Registry :=
  if writes then .read state else disk

/-- Applies `change` to the engine's copy and writes it. -/
def World.commit (world : World) (change : EngineProcessFile → EngineProcessFile) (writes : Bool) :
    World :=
  match world.copy with
  | none => world
  | some state => ⟨written world.disk (change state) writes,
      world.engine.map fun engine => { engine with registry := some (change state) }⟩

/-- What an engine does with its registry, with what befalls it: whether its write succeeds, whether
    the file it finds can be read, and which groups it finds running. -/
inductive Step where
  /-- An engine comes; `again` and `clears` are the second look and what it writes, of one whose first
      write fails. -/
  | create (pid : Pid) (probe : OwnerProbe) (now : Instant) (reads : Bool)
      (groupRuns : Pid → Option Bool) (writes : Bool) (again : Pid → Option Bool) (clears : Bool)
  | add (pgid : Pid) (writes : Bool)
  /-- The guard of a group's registration is gone: it was kept where the group could not be
      stopped. -/
  | dropGuard (pgid : Pid) (kept : Bool) (writes : Bool)
  | asking (asked : Option Asked) (writes : Bool)
  /-- The engine leaves the run: what it clears is written, or deleted, where that succeeds. -/
  | leave (groupRuns : Pid → Option Bool) (writes : Bool)
  | crash

def addGroup (pgid : Pid) (state : EngineProcessFile) : EngineProcessFile :=
  if pgid ∈ state.processGroups then state
  else { state with processGroups := state.processGroups ++ [pgid] }

def removeGroup (pgid : Pid) (state : EngineProcessFile) : EngineProcessFile :=
  { state with processGroups := state.processGroups.filter (· ≠ pgid) }

def setAsking (asked : Option Asked) (state : EngineProcessFile) : EngineProcessFile :=
  { state with asking := asked }

/-- Deletes the registry, but for the groups kept that still run: the file then names only those. -/
def cleared (disk : Registry) (state : EngineProcessFile) (groupRuns : Pid → Option Bool)
    (writes : Bool) : Registry :=
  let left := runningGroups groupRuns state.processGroups
  if left.isEmpty then if writes then .absent else disk
  else written disk { state with asking := none, processGroups := left } writes

/-- Writes the initial file of an engine: an earlier one is replaced, but the groups it still names and
    that still run stay registered.  Where that fails the registry is dropped, and with it cleared, and
    the engine drives the run without one.  No engine takes a run another drives. -/
def World.create (world : World) (pid : Pid) (probe : OwnerProbe) (now : Instant) (reads : Bool)
    (groupRuns : Pid → Option Bool) (writes : Bool) (again : Pid → Option Bool) (clears : Bool) :
    World :=
  match world.engine with
  | some _ => world
  | none =>
    let groups := if reads then runningGroups groupRuns world.disk.named else []
    let state : EngineProcessFile := ⟨pid, Lock.takenAt pid probe now, groups, none⟩
    if writes then ⟨.read state, some ⟨pid, state.startedAt, some state⟩⟩
    else ⟨cleared world.disk state again clears, some ⟨pid, state.startedAt, none⟩⟩

/-- The engine leaves the run: its copy is dropped, and what it clears is written, or deleted. -/
def World.leave (world : World) (groupRuns : Pid → Option Bool) (writes : Bool) : World :=
  match world.copy with
  | none => { world with engine := none }
  | some state => ⟨cleared world.disk state groupRuns writes, none⟩

def World.step (world : World) : Step → World
  | .create pid probe now reads groupRuns writes again clears =>
    world.create pid probe now reads groupRuns writes again clears
  | .add pgid writes => world.commit (addGroup pgid) writes
  | .dropGuard pgid kept writes => if kept then world else world.commit (removeGroup pgid) writes
  | .asking asked writes => world.commit (setAsking asked) writes
  | .leave groupRuns writes => world.leave groupRuns writes
  | .crash => { world with engine := none }

def World.run (world : World) (steps : List Step) : World := steps.foldl World.step world

/-! ## A group stays registered -/

/-- The file and the copy both name a group. -/
structure Keeps (pgid : Pid) (world : World) : Prop where
  disk : pgid ∈ world.disk.named
  copy : ∀ state ∈ world.copy, pgid ∈ state.processGroups

/-- What a step must not do to a group for the group to stay: unregister it, look for it and find no
    member running, or start an engine that cannot read the file. -/
def Step.Spares (pgid : Pid) : Step → Prop
  | create _ _ _ reads groupRuns writes again _ =>
    reads = true ∧ groupRuns pgid ≠ some false ∧ (writes = false → again pgid ≠ some false)
  | dropGuard closed kept _ => closed = pgid → kept = true
  | leave groupRuns _ => groupRuns pgid ≠ some false
  | _ => True

theorem mem_runningGroups {groupRuns : Pid → Option Bool} {groups : List Pid} {pgid : Pid}
    (hmem : pgid ∈ groups) (hruns : groupRuns pgid ≠ some false) :
    pgid ∈ runningGroups groupRuns groups := by
  refine List.mem_filter.mpr ⟨hmem, ?_⟩
  cases hlook : groupRuns pgid with
  | none => rfl
  | some runs =>
    cases runs with
    | true => rfl
    | false => exact absurd hlook hruns

theorem mem_addGroup {pgid : Pid} (other : Pid) {state : EngineProcessFile}
    (hmem : pgid ∈ state.processGroups) : pgid ∈ (addGroup other state).processGroups := by
  rw [addGroup]
  split
  · exact hmem
  · exact List.mem_append_left _ hmem

theorem mem_addGroup_self (pgid : Pid) (state : EngineProcessFile) :
    pgid ∈ (addGroup pgid state).processGroups := by
  rw [addGroup]
  split
  · next hmem => exact hmem
  · exact List.mem_append_right _ (List.mem_singleton_self _)

/-- What a change makes of the copy. -/
theorem commit_copy {world : World} {state : EngineProcessFile} (hcopy : world.copy = some state)
    (change : EngineProcessFile → EngineProcessFile) (writes : Bool) :
    (world.commit change writes).disk = written world.disk (change state) writes ∧
      (world.commit change writes).copy = some (change state) := by
  rw [World.commit, hcopy]
  obtain ⟨engine, hengine, -⟩ := Option.bind_eq_some_iff.mp hcopy
  refine ⟨rfl, ?_⟩
  rw [World.copy, hengine]
  rfl

/-- Without a copy there is nothing to change. -/
theorem commit_none {world : World} (hcopy : world.copy = none)
    (change : EngineProcessFile → EngineProcessFile) (writes : Bool) :
    world.commit change writes = world := by
  rw [World.commit, hcopy]

/-- A file that names a group still does once a copy that names it was written, or was not. -/
theorem mem_written {pgid : Pid} {disk : Registry} (hdisk : pgid ∈ disk.named)
    {state : EngineProcessFile} (hmem : pgid ∈ state.processGroups) (writes : Bool) :
    pgid ∈ (written disk state writes).named := by
  cases writes with
  | true => exact hmem
  | false => exact hdisk

/-- Clearing leaves a file that names a group still naming it, where the look finds the group running. -/
theorem mem_cleared {pgid : Pid} {disk : Registry} (hdisk : pgid ∈ disk.named)
    {state : EngineProcessFile} (hmem : pgid ∈ state.processGroups) {groupRuns : Pid → Option Bool}
    (hruns : groupRuns pgid ≠ some false) (writes : Bool) :
    pgid ∈ (cleared disk state groupRuns writes).named := by
  have hleft := mem_runningGroups hmem hruns
  have hsome : (runningGroups groupRuns state.processGroups).isEmpty = false :=
    List.isEmpty_eq_false_iff_exists_mem.mpr ⟨pgid, hleft⟩
  rw [cleared, hsome, if_neg Bool.false_ne_true]
  exact mem_written hdisk hleft writes

/-- A change that keeps a group in the copy keeps it in the file, written or not. -/
theorem Keeps.commit {pgid : Pid} {world : World} (h : Keeps pgid world)
    {change : EngineProcessFile → EngineProcessFile}
    (hchange : ∀ state, pgid ∈ state.processGroups → pgid ∈ (change state).processGroups)
    (writes : Bool) : Keeps pgid (world.commit change writes) := by
  cases hcopy : world.copy with
  | none =>
    rw [commit_none hcopy]
    exact h
  | some state =>
    obtain ⟨hdisk, hcopied⟩ := commit_copy hcopy change writes
    have hmem := hchange state (h.copy state hcopy)
    refine ⟨?_, fun state' hstate' => ?_⟩
    · rw [hdisk]
      exact mem_written h.disk hmem writes
    · obtain rfl := Option.some.inj (hcopied.symm.trans hstate')
      exact hmem

/-- A file that names a group still does once an engine came or failed to write its own. -/
theorem Keeps.create {pgid : Pid} {world : World} (h : Keeps pgid world) (pid : Pid)
    (probe : OwnerProbe) (now : Instant) {groupRuns again : Pid → Option Bool}
    (hruns : groupRuns pgid ≠ some false) {writes : Bool}
    (hagain : writes = false → again pgid ≠ some false) (clears : Bool) :
    Keeps pgid (world.create pid probe now true groupRuns writes again clears) := by
  rw [World.create]
  cases hengine : world.engine with
  | some engine => exact h
  | none =>
    have hmem : pgid ∈ runningGroups groupRuns world.disk.named := mem_runningGroups h.disk hruns
    cases writes with
    | true => exact ⟨hmem, fun state hstate => Option.some.inj hstate ▸ hmem⟩
    | false => exact ⟨mem_cleared h.disk hmem (hagain rfl) clears, fun _ hstate => by cases hstate⟩

theorem Keeps.leave {pgid : Pid} {world : World} (h : Keeps pgid world)
    {groupRuns : Pid → Option Bool} (hruns : groupRuns pgid ≠ some false) (writes : Bool) :
    Keeps pgid (world.leave groupRuns writes) := by
  rw [World.leave]
  cases hcopy : world.copy with
  | none => exact ⟨h.disk, fun _ hstate => by cases hstate⟩
  | some state =>
    exact ⟨mem_cleared h.disk (h.copy state hcopy) hruns writes, fun _ hstate => by cases hstate⟩

/-- What one step that spares a group does to it: nothing. -/
theorem Keeps.step {pgid : Pid} {world : World} (h : Keeps pgid world) {step : Step}
    (hspares : step.Spares pgid) : Keeps pgid (world.step step) := by
  cases step with
  | create pid probe now reads groupRuns writes again clears =>
    obtain ⟨rfl, hruns, hagain⟩ := hspares
    exact h.create pid probe now hruns hagain clears
  | add other writes => exact h.commit (fun _ hmem => mem_addGroup other hmem) writes
  | dropGuard closed kept writes =>
    show Keeps pgid (if kept then world else world.commit (removeGroup closed) writes)
    by_cases hclosed : closed = pgid
    · rw [if_pos (hspares hclosed)]
      exact h
    · split
      · exact h
      · refine h.commit (fun state hmem => ?_) writes
        exact List.mem_filter.mpr ⟨hmem, by simpa using Ne.symm hclosed⟩
  | asking asked writes => exact @Keeps.commit pgid world h (setAsking asked) (fun _ hmem => hmem) writes
  | leave groupRuns writes => exact h.leave hspares writes
  | crash => exact ⟨h.disk, fun _ hstate => (by cases hstate)⟩

/-- What spares a group, step after step, leaves it registered. -/
theorem Keeps.run {pgid : Pid} {world : World} (h : Keeps pgid world) {steps : List Step}
    (hspares : ∀ step ∈ steps, step.Spares pgid) : Keeps pgid (world.run steps) := by
  induction steps generalizing world with
  | nil => exact h
  | cons step steps ih =>
    exact ih (h.step (hspares step (List.mem_cons_self ..)))
      fun other hother => hspares other (List.mem_cons_of_mem _ hother)

/-- A live engine's copy names a group. -/
def InCopy (pgid : Pid) (world : World) : Prop :=
  ∃ state, world.copy = some state ∧ pgid ∈ state.processGroups

/-- What a step writes: whether it did, for a step that writes the engine's copy. -/
def Step.written : Step → Option Bool
  | add _ writes => some writes
  | dropGuard _ kept writes => if kept then none else some writes
  | asking _ writes => some writes
  | _ => none

/-- A step an engine takes while it drives the run. -/
def Step.Drives : Step → Prop
  | add .. | dropGuard .. | asking .. => True
  | _ => False

theorem InCopy.commit {pgid : Pid} {world : World} (h : InCopy pgid world)
    {change : EngineProcessFile → EngineProcessFile}
    (hchange : ∀ state, pgid ∈ state.processGroups → pgid ∈ (change state).processGroups)
    (writes : Bool) :
    InCopy pgid (world.commit change writes) ∧
      (writes = true → Keeps pgid (world.commit change writes)) := by
  obtain ⟨state, hcopy, hmem⟩ := h
  have hchanged := hchange state hmem
  obtain ⟨hdisk, hcopied⟩ := commit_copy hcopy change writes
  refine ⟨⟨change state, hcopied, hchanged⟩, fun hwrites => ⟨?_, fun state' hstate' => ?_⟩⟩
  · rw [hdisk, hwrites]
    exact hchanged
  · obtain rfl := Option.some.inj (hcopied.symm.trans hstate')
    exact hchanged

/-- A group an engine's copy names is named by the file from the engine's next write on. -/
theorem InCopy.step {pgid : Pid} {world : World} (h : InCopy pgid world) {step : Step}
    (hdrives : step.Drives) (hspares : step.Spares pgid) :
    InCopy pgid (world.step step) ∧
      (step.written = some true → Keeps pgid (world.step step)) := by
  cases step with
  | add other writes =>
    obtain ⟨hcopy, hkeeps⟩ := h.commit (fun _ hmem => mem_addGroup other hmem) writes
    exact ⟨hcopy, fun hwritten => hkeeps (Option.some.inj hwritten)⟩
  | dropGuard closed kept writes =>
    show InCopy pgid (if kept then world else world.commit (removeGroup closed) writes) ∧
      ((if kept then none else some writes) = some true →
        Keeps pgid (if kept then world else world.commit (removeGroup closed) writes))
    cases hkept : kept with
    | true => exact ⟨h, fun hwritten => (by cases hwritten)⟩
    | false =>
      have hother : closed ≠ pgid := fun heq => (by rw [hspares heq] at hkept; cases hkept)
      obtain ⟨hcopy, hkeeps⟩ := @InCopy.commit pgid world h (removeGroup closed) (fun state hmem =>
        List.mem_filter.mpr ⟨hmem, by simpa using Ne.symm hother⟩) writes
      exact ⟨hcopy, fun hwritten => hkeeps (Option.some.inj hwritten)⟩
  | asking asked writes =>
    obtain ⟨hcopy, hkeeps⟩ := @InCopy.commit pgid world h (setAsking asked) (fun _ hmem => hmem) writes
    exact ⟨hcopy, fun hwritten => hkeeps (Option.some.inj hwritten)⟩
  | create pid probe now reads groupRuns writes again clears => cases hdrives
  | leave groupRuns writes => cases hdrives
  | crash => cases hdrives

theorem InCopy.run {pgid : Pid} {world : World} (h : InCopy pgid world) {steps : List Step}
    (hdrives : ∀ step ∈ steps, step.Drives) (hspares : ∀ step ∈ steps, step.Spares pgid) :
    InCopy pgid (world.run steps) := by
  induction steps generalizing world with
  | nil => exact h
  | cons step steps ih =>
    exact ih (h.step (hdrives step (List.mem_cons_self ..)) (hspares step (List.mem_cons_self ..))).1
      (fun other hother => hdrives other (List.mem_cons_of_mem _ hother))
      fun other hother => hspares other (List.mem_cons_of_mem _ hother)

/-- What a live engine's registration does: its copy names the group, and so does the file where the
    write succeeds. -/
theorem registers {world : World} (pgid : Pid) (hlives : world.copy.isSome = true) (writes : Bool) :
    InCopy pgid (world.step (.add pgid writes)) ∧
      (writes = true → Keeps pgid (world.step (.add pgid writes))) := by
  obtain ⟨state, hcopy⟩ := Option.isSome_iff_exists.mp hlives
  have hmem := mem_addGroup_self pgid state
  obtain ⟨hdisk, hcopied⟩ := commit_copy hcopy (addGroup pgid) writes
  refine ⟨⟨addGroup pgid state, hcopied, hmem⟩, fun hwrites => ⟨?_, fun state' hstate' => ?_⟩⟩
  · show pgid ∈ (world.commit (addGroup pgid) writes).disk.named
    rw [hdisk, hwrites]
    exact hmem
  · obtain rfl := Option.some.inj (hcopied.symm.trans hstate')
    exact hmem

/-- **A registered group stays registered**: where a write of the engine that registered a group
    succeeds, that one or a later one, the file names the group after any steps that spare it, whatever
    other writes fail, whatever crashes, and whichever engines follow. -/
theorem registered_stays {world : World} (hlives : world.copy.isSome = true) (pgid : Pid)
    (writes : Bool) (own after : List Step) (hdrives : ∀ step ∈ own, step.Drives)
    (hspares : ∀ step ∈ own ++ after, step.Spares pgid)
    (hwritten : ∃ step ∈ Step.add pgid writes :: own, step.written = some true) :
    pgid ∈ (world.run (.add pgid writes :: own ++ after)).disk.named := by
  obtain ⟨hcopy, hkeeps⟩ := registers pgid hlives writes
  have hrun : world.run (.add pgid writes :: own ++ after) =
      (world.step (.add pgid writes)).run (own ++ after) := rfl
  rw [hrun]
  obtain ⟨step, hmem, hstep⟩ := hwritten
  rcases List.mem_cons.mp hmem with rfl | hmem
  · exact ((hkeeps (Option.some.inj hstep)).run hspares).disk
  · obtain ⟨early, late, rfl⟩ := List.append_of_mem hmem
    -- up to the write that succeeds the copy names the group, and from it on the file does
    have hearly : InCopy pgid ((world.step (.add pgid writes)).run early) :=
      hcopy.run (fun other hother => hdrives other (List.mem_append_left _ hother)) fun other hother =>
        hspares other (List.mem_append_left _ (List.mem_append_left _ hother))
    have hreached := (hearly.step (hdrives step hmem) (hspares step (List.mem_append_left _ hmem))).2 hstep
    have hlate := @Keeps.run pgid _ hreached (late ++ after) fun other hother => hspares other (by
      rw [List.append_assoc]
      exact List.mem_append_right _ (List.mem_cons_of_mem _ hother))
    rw [List.append_assoc, World.run, List.foldl_append]
    exact hlate.disk

/-! ## A live engine reads as one -/

/-- What the host says of a live engine: its process lives, and started no later than the engine's own
    record says, where the host says when. -/
def Agrees (probe : OwnerProbe) (engine : Engine) : Prop :=
  probe.liveness engine.pid = .alive ∧ ∀ started ∈ probe.started engine.pid, started ≤ engine.startedAt

/-- A file names an engine as its own record does. -/
structure Names (engine : Engine) (file : EngineProcessFile) : Prop where
  pid : file.enginePid = engine.pid
  startedAt : file.startedAt = engine.startedAt

/-- While an engine that holds its registry drives the run, the file is its own. -/
def Own (world : World) : Prop :=
  ∀ engine ∈ world.engine, ∀ state ∈ engine.registry, Names engine state ∧
    ∃ file, world.disk = .read file ∧ Names engine file

theorem Own.commit {world : World} (h : Own world) {change : EngineProcessFile → EngineProcessFile}
    (hchange : ∀ state, (change state).enginePid = state.enginePid ∧
      (change state).startedAt = state.startedAt) (writes : Bool) : Own (world.commit change writes) := by
  cases hcopy : world.copy with
  | none =>
    rw [commit_none hcopy]
    exact h
  | some state =>
    obtain ⟨engine, hengine, hregistry⟩ := Option.bind_eq_some_iff.mp hcopy
    obtain ⟨hstate, file, hdisk, hfile⟩ := h engine hengine state hregistry
    obtain ⟨hpid, hstarted⟩ := hchange state
    have hchanged : Names engine (change state) :=
      ⟨hpid.trans hstate.pid, hstarted.trans hstate.startedAt⟩
    rw [World.commit, hcopy, hengine]
    intro engine' hengine' state' hstate'
    obtain rfl := Option.some.inj hengine'
    obtain rfl := Option.some.inj hstate'
    refine ⟨⟨hchanged.pid, hchanged.startedAt⟩, ?_⟩
    cases writes with
    | true => exact ⟨change state, rfl, hchanged.pid, hchanged.startedAt⟩
    | false => exact ⟨file, hdisk, hfile.pid, hfile.startedAt⟩

theorem Own.step {world : World} (h : Own world) (step : Step) : Own (world.step step) := by
  cases step with
  | create pid probe now reads groupRuns writes again clears =>
    show Own (world.create pid probe now reads groupRuns writes again clears)
    rw [World.create]
    cases world.engine with
    | some engine => exact h
    | none =>
      cases writes with
      | true =>
        intro engine hengine state hstate
        obtain rfl := Option.some.inj hengine
        obtain rfl := Option.some.inj hstate
        exact ⟨⟨rfl, rfl⟩, _, rfl, rfl, rfl⟩
      | false =>
        -- the engine goes on without a registry
        intro engine hengine state hstate
        obtain rfl := Option.some.inj hengine
        cases hstate
  | add pgid writes =>
    refine @Own.commit world h (addGroup pgid) (fun state => ?_) writes
    rw [addGroup]
    split <;> exact ⟨rfl, rfl⟩
  | dropGuard closed kept writes =>
    show Own (if kept then world else world.commit (removeGroup closed) writes)
    split
    · exact h
    · exact @Own.commit world h (removeGroup closed) (fun _ => ⟨rfl, rfl⟩) writes
  | asking asked writes => exact @Own.commit world h (setAsking asked) (fun _ => ⟨rfl, rfl⟩) writes
  | leave groupRuns writes =>
    show Own (world.leave groupRuns writes)
    rw [World.leave]
    split <;> exact fun _ hengine => (by cases hengine)
  | crash => exact fun _ hengine => (by cases hengine)

theorem Own.run {world : World} (h : Own world) (steps : List Step) : Own (world.run steps) := by
  induction steps generalizing world with
  | nil => exact h
  | cons step steps ih => exact ih (h.step step)

/-- **A live engine reads as one**: over any steps of a run's engines, from a run nothing drives, a
    reader whose host agrees that the engine driving the run lives never answers anything else, where
    that engine could write its registry when it came. -/
theorem live_engine_alive (disk : Registry) (steps : List Step) {engine : Engine}
    (hdrives : (World.run ⟨disk, none⟩ steps).engine = some engine)
    (hwrote : engine.registry.isSome = true) {probe : OwnerProbe} (hagrees : Agrees probe engine) :
    engineLiveness (World.run ⟨disk, none⟩ steps).disk probe = .alive := by
  have hown : Own (World.run ⟨disk, none⟩ steps) :=
    @Own.run ⟨disk, none⟩ (fun _ hengine => (by cases hengine)) steps
  obtain ⟨state, hstate⟩ := Option.isSome_iff_exists.mp hwrote
  obtain ⟨-, file, hdisk, hpid, hstarted⟩ := hown engine hdrives state hstate
  obtain ⟨halive, hsince⟩ := hagrees
  have hliveness : file.liveness probe = .alive := by
    rw [EngineProcessFile.liveness, Lock.holderState]
    dsimp only
    rw [hpid, halive]
    dsimp only
    cases hasked : probe.started engine.pid with
    | none => rfl
    | some started =>
      have hearly := hsince started hasked
      dsimp only
      rw [if_neg (Int.not_lt.mpr (le_of_le_of_eq hearly hstarted.symm))]
  rw [hdisk, engineLiveness, hliveness]

/-- A host on which every process lives, and says of none when it started. -/
def living : OwnerProbe := ⟨fun _ => .alive, fun _ => none⟩

/-- An engine that could not write a group's registration, wrote it with the next, and crashed; the one
    after it found the group running and failed to write its file, and the one after that could not
    write that it asks a person. -/
theorem registered_stays_crashed :
    7 ∈ (World.run ⟨.absent, some ⟨1, 0, some ⟨1, 0, [], none⟩⟩⟩ [.add 7 false, .add 8 true, .crash,
      .create 2 living 5 true (fun _ => none) false (fun _ => none) true, .crash,
      .create 3 living 6 true (fun _ => none) true (fun _ => none) true,
      .asking none false]).disk.named :=
  @registered_stays ⟨.absent, some ⟨1, 0, some ⟨1, 0, [], none⟩⟩⟩ rfl 7 false [.add 8 true]
    [.crash, .create 2 living 5 true (fun _ => none) false (fun _ => none) true, .crash,
      .create 3 living 6 true (fun _ => none) true (fun _ => none) true, .asking none false]
    (fun step hstep => (by rw [List.mem_singleton.mp hstep]; trivial))
    (fun step hstep => (by
      simp only [List.cons_append, List.nil_append, List.mem_cons, List.not_mem_nil, or_false] at hstep
      rcases hstep with rfl | rfl | rfl | rfl | rfl | rfl
      · trivial
      · trivial
      · exact ⟨rfl, (fun h => by cases h), fun _ h => by cases h⟩
      · trivial
      · exact ⟨rfl, (fun h => by cases h), fun h => by cases h⟩
      · trivial))
    ⟨.add 8 true, by simp, rfl⟩

theorem live_engine_alive_restarted :
    engineLiveness (World.run ⟨.corrupt, none⟩
      [.create 1 living 5 false (fun _ => none) true (fun _ => none) true, .add 7 true, .crash,
        .create 2 living 9 true (fun _ => none) true (fun _ => none) true, .add 8 false]).disk
      ⟨fun _ => .alive, fun _ => some 9⟩ = .alive :=
  @live_engine_alive .corrupt
    [.create 1 living 5 false (fun _ => none) true (fun _ => none) true, .add 7 true, .crash,
      .create 2 living 9 true (fun _ => none) true (fun _ => none) true, .add 8 false]
    ⟨2, 9, some ⟨2, 9, [7, 8], none⟩⟩ rfl rfl ⟨fun _ => .alive, fun _ => some 9⟩
    ⟨rfl, fun started hstarted => by rw [← Option.some.inj hstarted]⟩

/-- An engine that could not write its registry leaves the one before it named, which has gone. -/
example : engineLiveness (World.run ⟨.read ⟨1, 5, [7], none⟩, none⟩
    [.create 2 living 9 true (fun _ => none) false (fun _ => none) false]).disk
    ⟨fun pid => if pid = 2 then .alive else .dead, fun _ => none⟩ = .dead := by decide

end Yunta.ProcessRegistry
