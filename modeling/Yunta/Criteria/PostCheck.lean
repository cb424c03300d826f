/-
  The check of a task's work against its criteria.

  1. **The measurement** — the guards every task is held to were measured before the run changed
     anything, or are being measured while it works (`Known`).  One measured red holds nothing.

  2. **The check** — `postCheck` runs the task's own criteria, then the guards that can run until
     one is red, then those it waited for; the guards after a red run are left waiting.

  3. **Main result** — `postCheck_faithful_iff`: the check passes exactly when every criterion that
     counts exits 0.  What ran and what waits make up the criteria that count, each command once,
     exactly where a red criterion of the task's own meets no guard measured red, and the criteria
     that count have commands of their own.  Otherwise a guard that holds nothing is said to wait
     (`not_faithful`).

  The answers come through the memo of the tree, so a command has one answer (`answer`); what the
  wait ends in is `Known.after`.
-/
import Yunta.Criteria.Memo
import Yunta.Tasks.Document
import Mathlib.Data.List.Perm.Basic

set_option linter.unusedVariables false

namespace Yunta.Criteria

open Text (trim)

/-! ## The measurement -/

/-- What an invocation knows of the measurement, by command: whether it is being measured, and
    whether it passed when it was. -/
structure Known where
  pending : String → Bool
  measured : String → Option Bool

namespace Known

/-- Whether a command was measured red, and nothing measures it again. -/
def red (known : Known) (cmd : String) : Bool :=
  !known.pending (trim cmd) && known.measured (trim cmd) = some false

/-- What is known once nothing is being measured: each command that was answered, or was given up
    on without an answer. -/
def after (known : Known) (answers : String → Option Bool) : Known where
  pending _ := false
  measured cmd :=
    if known.pending cmd then (answers cmd).or (known.measured cmd) else known.measured cmd

/-- Whether a criterion counts: it is the task's own, or a guard not measured red. -/
def counts (known : Known) (criterion : Criterion) : Bool :=
  !(criterion.isGuard && known.red criterion.cmd)

/-- `guards` split by whether they can run now, in their order: one being measured waits apart, and
    one measured red is in neither. -/
def split (known : Known) (guards : List Criterion) : List Criterion × List Criterion :=
  (guards.filter fun guard =>
      !known.pending (trim guard.cmd) && known.measured (trim guard.cmd) ≠ some false,
    guards.filter fun guard => known.pending (trim guard.cmd))

/-- `guards` as the measurement leaves them: without each that was measured red. -/
def judging (known : Known) (guards : List Criterion) : List Criterion :=
  guards.filter fun guard => known.measured (trim guard.cmd) ≠ some false

end Known

/-! ## The check -/

/-- What one criterion's command answered, and whether the memo had it. -/
structure CriterionRun where
  cmd : String
  exitCode : Int
  isGuard : Bool
  reused : Bool
  deriving DecidableEq

/-- What the memo holds of the tree, by command. -/
abbrev TreeMemo := String → Option Int

/-- Remembers what a command answered, unless it could not run at all. -/
def TreeMemo.put (memo : TreeMemo) (cmd : String) (exitCode : Int) : TreeMemo :=
  if (Unanswered.of exitCode).isSome then memo else Function.update memo cmd (some exitCode)

/-- Every criterion the check ran, and the guards it left waiting. -/
structure PostCheck where
  runs : List CriterionRun
  waiting : List String
  deriving DecidableEq

/-- Whether the check passes: every criterion ran, and each exits 0. -/
def PostCheck.passes (check : PostCheck) : Bool :=
  check.waiting.isEmpty && check.runs.all fun run => run.exitCode = 0

section
variable (exit : String → Int)

/-- Runs `criteria` in order, each through the memo. -/
def runOn : List Criterion → TreeMemo → List CriterionRun × TreeMemo
  | [], memo => ([], memo)
  | criterion :: criteria, memo =>
    match memo criterion.cmd with
    | some exitCode =>
      let (runs, memo) := runOn criteria memo
      (⟨criterion.cmd, exitCode, criterion.isGuard, true⟩ :: runs, memo)
    | none =>
      let exitCode := exit criterion.cmd
      let (runs, memo) := runOn criteria (memo.put criterion.cmd exitCode)
      (⟨criterion.cmd, exitCode, criterion.isGuard, false⟩ :: runs, memo)

/-- Whether one of `runs` is red. -/
def anyRed (runs : List CriterionRun) : Bool := runs.any fun run => run.exitCode ≠ 0

/-- Runs `guards` in order until one is red: what ran, and the commands after the red one. -/
def runUntilRed : List Criterion → TreeMemo → List CriterionRun × List String × TreeMemo
  | [], memo => ([], [], memo)
  | guard :: guards, memo =>
    let (ran, memo) := runOn exit [guard] memo
    if anyRed ran then (ran, guards.map (·.cmd), memo)
    else
      let (runs, waiting, memo) := runUntilRed guards memo
      (ran ++ runs, waiting, memo)

variable (known : Known) (answers : String → Option Bool)

/-- **`post_check`**: the task's own criteria, in declared order, and its guards only once every one
    of those passes, in their order until the first red one. -/
def postCheck (criteria : List Criterion) (memo : TreeMemo) : PostCheck :=
  let (guards, own) := criteria.partition (·.isGuard)
  let (runs, memo) := runOn exit own memo
  if anyRed runs then ⟨runs, guards.map (·.cmd)⟩
  else
    let (ready, pending) := known.split guards
    let (ran, waiting, memo) := runUntilRed exit ready memo
    if anyRed ran then ⟨runs ++ ran, waiting ++ pending.map (·.cmd)⟩
    else
      -- The suite still being measured is waited for here.
      let pending := (known.after answers).judging pending
      let (last, waiting, _) := runUntilRed exit pending memo
      ⟨runs ++ ran ++ last, waiting⟩

/-! ## What ran -/

/-- The answer of a command on the tree: the memo's, or its own. -/
def answer (memo : TreeMemo) (cmd : String) : Int := (memo cmd).getD (exit cmd)

/-- What a criterion's run says beside where its answer came from. -/
def CriterionRun.said (run : CriterionRun) : String × Bool × Int :=
  (run.cmd, run.isGuard, run.exitCode)

/-- What a run of `criterion` says. -/
def saidOf (memo : TreeMemo) (criterion : Criterion) : String × Bool × Int :=
  (criterion.cmd, criterion.isGuard, answer exit memo criterion.cmd)

/-- Remembering a command's own answer changes no answer. -/
theorem answer_put (memo : TreeMemo) {cmd : String} (h : memo cmd = none) :
    answer exit (memo.put cmd (exit cmd)) = answer exit memo := by
  funext other
  unfold answer TreeMemo.put
  split
  · rfl
  · by_cases hother : other = cmd
    · rw [hother, Function.update_self, h]
      rfl
    · rw [Function.update_of_ne hother]

theorem saidOf_congr {memo memo' : TreeMemo} (h : answer exit memo = answer exit memo') :
    saidOf exit memo = saidOf exit memo' := by
  funext criterion
  simp only [saidOf, h]

/-- **A run of criteria** says of each what it answers on the tree, and changes no answer. -/
theorem runOn_spec (criteria : List Criterion) (memo : TreeMemo) :
    (runOn exit criteria memo).1.map CriterionRun.said = criteria.map (saidOf exit memo) ∧
      answer exit (runOn exit criteria memo).2 = answer exit memo := by
  induction criteria generalizing memo with
  | nil => exact ⟨rfl, rfl⟩
  | cons criterion criteria ih =>
    cases hmemo : memo criterion.cmd with
    | some exitCode =>
      obtain ⟨hsaid, hanswer⟩ := ih memo
      have hfirst : answer exit memo criterion.cmd = exitCode := by simp [answer, hmemo]
      have hrun : runOn exit (criterion :: criteria) memo =
          (⟨criterion.cmd, exitCode, criterion.isGuard, true⟩ :: (runOn exit criteria memo).1,
            (runOn exit criteria memo).2) := by
        rw [runOn, hmemo]
      rw [hrun]
      refine ⟨?_, hanswer⟩
      show (criterion.cmd, criterion.isGuard, exitCode) :: _ = saidOf exit memo criterion :: _
      rw [hsaid, saidOf, hfirst]
    | none =>
      have hput := answer_put exit memo hmemo
      obtain ⟨hsaid, hanswer⟩ := ih (memo.put criterion.cmd (exit criterion.cmd))
      have hfirst : answer exit memo criterion.cmd = exit criterion.cmd := by simp [answer, hmemo]
      have hrun : runOn exit (criterion :: criteria) memo =
          (⟨criterion.cmd, exit criterion.cmd, criterion.isGuard, false⟩ ::
              (runOn exit criteria (memo.put criterion.cmd (exit criterion.cmd))).1,
            (runOn exit criteria (memo.put criterion.cmd (exit criterion.cmd))).2) := by
        rw [runOn, hmemo]
      rw [hrun]
      refine ⟨?_, hanswer.trans hput⟩
      show (criterion.cmd, criterion.isGuard, exit criterion.cmd) :: _ =
        saidOf exit memo criterion :: _
      rw [hsaid, saidOf_congr exit hput, saidOf, hfirst]

/-- Whether every one of `criteria` exits 0. -/
def allGreen (memo : TreeMemo) (criteria : List Criterion) : Prop :=
  ∀ criterion ∈ criteria, answer exit memo criterion.cmd = 0

variable {exit} in
/-- Runs are red where one of the criteria they are of is. -/
theorem anyRed_iff {runs : List CriterionRun} {criteria : List Criterion} {memo : TreeMemo}
    (h : runs.map CriterionRun.said = criteria.map (saidOf exit memo)) :
    anyRed runs = false ↔ allGreen exit memo criteria := by
  have hcodes : runs.map (·.exitCode) = criteria.map fun c => answer exit memo c.cmd := by
    have hmapped := congrArg (List.map fun said : String × Bool × Int => said.2.2) h
    simpa [Function.comp_def, CriterionRun.said, saidOf] using hmapped
  have hall : (∀ code ∈ runs.map (·.exitCode), code = 0) ↔ allGreen exit memo criteria := by
    rw [hcodes]
    simp [allGreen]
  rw [← hall]
  simp [anyRed]

/-- **Guards run until one is red**: those that ran answered, the rest wait, and none waits where
    all that ran are green. -/
theorem runUntilRed_spec (guards : List Criterion) (memo : TreeMemo) :
    ∃ ran rest, guards = ran ++ rest ∧
      (runUntilRed exit guards memo).1.map CriterionRun.said = ran.map (saidOf exit memo) ∧
      (runUntilRed exit guards memo).2.1 = rest.map (·.cmd) ∧
      answer exit (runUntilRed exit guards memo).2.2 = answer exit memo ∧
      (allGreen exit memo ran → rest = []) := by
  induction guards generalizing memo with
  | nil => exact ⟨[], [], rfl, rfl, rfl, rfl, fun _ => rfl⟩
  | cons guard guards ih =>
    obtain ⟨hsaid, hanswer⟩ := runOn_spec exit [guard] memo
    have hred := anyRed_iff hsaid
    cases hrun : anyRed (runOn exit [guard] memo).1 with
    | true =>
      have heq : runUntilRed exit (guard :: guards) memo =
          ((runOn exit [guard] memo).1, guards.map (·.cmd), (runOn exit [guard] memo).2) := by
        rw [runUntilRed]
        simp [hrun]
      rw [heq]
      refine ⟨[guard], guards, rfl, hsaid, rfl, hanswer, fun hgreen => ?_⟩
      rw [hred.mpr hgreen] at hrun
      exact absurd hrun Bool.false_ne_true
    | false =>
      obtain ⟨ran, rest, rfl, hran, hrest, hlast, hend⟩ := ih (runOn exit [guard] memo).2
      have heq : runUntilRed exit (guard :: (ran ++ rest)) memo =
          ((runOn exit [guard] memo).1 ++
              (runUntilRed exit (ran ++ rest) (runOn exit [guard] memo).2).1,
            (runUntilRed exit (ran ++ rest) (runOn exit [guard] memo).2).2) := by
        rw [runUntilRed]
        simp [hrun]
      rw [heq]
      have hsame := saidOf_congr exit hanswer
      have hgreen : allGreen exit (runOn exit [guard] memo).2 ran ↔ allGreen exit memo ran := by
        simp only [allGreen, hanswer]
      refine ⟨guard :: ran, rest, rfl, ?_, hrest, hlast.trans hanswer, fun h => ?_⟩
      · rw [List.map_append, hsaid, hran, hsame]
        rfl
      · exact hend (hgreen.mpr fun criterion hmem => h criterion (List.mem_cons_of_mem _ hmem))

/-! ## What counts -/

/-- The task's own criteria. -/
def own (criteria : List Criterion) : List Criterion := criteria.filter fun c => !c.isGuard

def guards (criteria : List Criterion) : List Criterion := criteria.filter (·.isGuard)

instance (memo : TreeMemo) (criteria : List Criterion) : Decidable (allGreen exit memo criteria) :=
  inferInstanceAs (Decidable (∀ criterion ∈ criteria, _))

/-- Whether the check comes to wait for the measurement: the task's own criteria pass, and the
    guards that can run do. -/
def Waits (criteria : List Criterion) (memo : TreeMemo) : Prop :=
  allGreen exit memo (own criteria) ∧ allGreen exit memo (known.split (guards criteria)).1

instance (criteria : List Criterion) (memo : TreeMemo) :
    Decidable (Waits exit known criteria memo) :=
  inferInstanceAs (Decidable (_ ∧ _))

/-- The measurement on record when the check ends. -/
def recorded (criteria : List Criterion) (memo : TreeMemo) : Known :=
  if Waits exit known criteria memo then known.after answers else known

theorem parted (criteria : List Criterion) (counted : Criterion → Bool)
    (hown : ∀ c, c.isGuard = false → counted c = true) :
    (own criteria ++ (guards criteria).filter counted).Perm (criteria.filter counted) := by
  have hparts := List.filter_append_perm (fun c : Criterion => c.isGuard) (criteria.filter counted)
  have hguards : (criteria.filter counted).filter (·.isGuard) =
      (guards criteria).filter counted := by
    rw [guards, List.filter_filter, List.filter_filter]
    exact List.filter_congr fun c _ => Bool.and_comm ..
  have hrest : (criteria.filter counted).filter (fun c => !c.isGuard) = own criteria := by
    rw [own, List.filter_filter]
    refine List.filter_congr fun c _ => ?_
    cases hguard : c.isGuard
    · simp [hown c hguard]
    · rfl
  rw [hguards, hrest] at hparts
  exact List.perm_append_comm.trans hparts

variable {known} in
/-- The guards that count are those that can run and those being measured. -/
theorem split_perm (criteria : List Criterion) :
    ((known.split (guards criteria)).1 ++ (known.split (guards criteria)).2).Perm
      ((guards criteria).filter known.counts) := by
  let pending := fun c : Criterion => known.pending (trim c.cmd)
  have hparts := List.filter_append_perm pending ((guards criteria).filter known.counts)
  have hguard : ∀ c ∈ guards criteria, c.isGuard = true := fun c hc => (List.mem_filter.mp hc).2
  have hpending : ((guards criteria).filter known.counts).filter pending =
      (known.split (guards criteria)).2 := by
    rw [List.filter_filter]
    refine List.filter_congr fun c hc => ?_
    cases hp : known.pending (trim c.cmd) <;> simp [pending, Known.counts, Known.red, hp]
  have hready : ((guards criteria).filter known.counts).filter (fun c => !pending c) =
      (known.split (guards criteria)).1 := by
    rw [List.filter_filter]
    refine List.filter_congr fun c hc => ?_
    cases hp : known.pending (trim c.cmd) <;>
      simp [pending, Known.counts, Known.red, hp, hguard c hc]
  rw [hpending, hready] at hparts
  exact List.perm_append_comm.trans hparts

variable {known answers} in
/-- After the wait they are those that could run, and those the measurement left in. -/
theorem judging_perm (criteria : List Criterion) :
    ((known.split (guards criteria)).1 ++
        (known.after answers).judging (known.split (guards criteria)).2).Perm
      ((guards criteria).filter (known.after answers).counts) := by
  let pending := fun c : Criterion => known.pending (trim c.cmd)
  have hparts := List.filter_append_perm pending
    ((guards criteria).filter (known.after answers).counts)
  have hguard : ∀ c ∈ guards criteria, c.isGuard = true := fun c hc => (List.mem_filter.mp hc).2
  have hpending : ((guards criteria).filter (known.after answers).counts).filter pending =
      (known.after answers).judging (known.split (guards criteria)).2 := by
    rw [List.filter_filter]
    show _ = ((guards criteria).filter pending).filter _
    rw [List.filter_filter]
    refine List.filter_congr fun c hc => ?_
    cases hp : known.pending (trim c.cmd) <;>
      simp [pending, Known.counts, Known.red, hguard c hc, Known.after, hp]
  have hready : ((guards criteria).filter (known.after answers).counts).filter
      (fun c => !pending c) = (known.split (guards criteria)).1 := by
    rw [List.filter_filter]
    refine List.filter_congr fun c hc => ?_
    cases hp : known.pending (trim c.cmd) <;>
      simp [pending, Known.counts, Known.red, Known.after, hp, hguard c hc]
  rw [hpending, hready] at hparts
  exact List.perm_append_comm.trans hparts

/-- **What the check ran and left waiting**: where the task's own criteria pass, those are the
    criteria that count; where one of them is red, they are all of the criteria. -/
theorem postCheck_spec (criteria : List Criterion) (memo : TreeMemo) :
    ∃ ran rest : List Criterion,
      (postCheck exit known answers criteria memo).runs.map CriterionRun.said =
        ran.map (saidOf exit memo) ∧
      (postCheck exit known answers criteria memo).waiting = rest.map (·.cmd) ∧
      (∀ guard ∈ rest, guard.isGuard = true) ∧
      (allGreen exit memo (own criteria) →
        (ran ++ rest).Perm (criteria.filter (recorded exit known answers criteria memo).counts)) ∧
      (¬ allGreen exit memo (own criteria) →
        ran = own criteria ∧ rest = guards criteria) ∧
      (allGreen exit memo ran → rest = []) := by
  have hpartition : criteria.partition (·.isGuard) = (guards criteria, own criteria) :=
    List.partition_eq_filter_filter
  have hguard : ∀ c ∈ guards criteria, c.isGuard = true := fun c hc => (List.mem_filter.mp hc).2
  have hown : ∀ known : Known, ∀ c : Criterion, c.isGuard = false → known.counts c = true :=
    fun known c hc => by simp [Known.counts, hc]
  obtain ⟨hsaid, hanswer⟩ := runOn_spec exit (own criteria) memo
  have hred := anyRed_iff hsaid
  cases hfirst : anyRed (runOn exit (own criteria) memo).1 with
  | true =>
    have hnot : ¬ allGreen exit memo (own criteria) := fun hgreen => by
      rw [hred.mpr hgreen] at hfirst
      exact absurd hfirst Bool.false_ne_true
    have hcheck : postCheck exit known answers criteria memo =
        ⟨(runOn exit (own criteria) memo).1, (guards criteria).map (·.cmd)⟩ := by
      rw [postCheck, hpartition]
      simp [hfirst]
    rw [hcheck]
    exact ⟨own criteria, guards criteria, hsaid, rfl, hguard, fun hgreen => absurd hgreen hnot,
      fun _ => ⟨rfl, rfl⟩, fun hgreen => absurd hgreen hnot⟩
  | false =>
    have hgreen : allGreen exit memo (own criteria) := hred.mp hfirst
    obtain ⟨ran, rest, hready, hran, hrest, hmemo, hend⟩ :=
      runUntilRed_spec exit (known.split (guards criteria)).1 (runOn exit (own criteria) memo).2
    have hsame := saidOf_congr exit hanswer
    rw [hsame] at hran
    have hran_green : allGreen exit (runOn exit (own criteria) memo).2 ran ↔
        allGreen exit memo ran := by simp only [allGreen, hanswer]
    have hred' := anyRed_iff hran
    cases hsecond : anyRed (runUntilRed exit (known.split (guards criteria)).1
        (runOn exit (own criteria) memo).2).1 with
    | true =>
      have hnot : ¬ allGreen exit memo ran := fun h => by
        rw [hred'.mpr h] at hsecond
        exact absurd hsecond Bool.false_ne_true
      have hwaits : ¬ Waits exit known criteria memo := fun h => by
        refine hnot fun c hc => h.2 c ?_
        rw [hready]
        exact List.mem_append_left rest hc
      have hcheck : postCheck exit known answers criteria memo =
          ⟨(runOn exit (own criteria) memo).1 ++ (runUntilRed exit (known.split (guards criteria)).1
              (runOn exit (own criteria) memo).2).1,
            (runUntilRed exit (known.split (guards criteria)).1
              (runOn exit (own criteria) memo).2).2.1 ++
              (known.split (guards criteria)).2.map (·.cmd)⟩ := by
        rw [postCheck, hpartition]
        simp [hfirst, hsecond]
      have hsplit := @split_perm known criteria
      rw [hready] at hsplit
      rw [hcheck, recorded, if_neg hwaits]
      refine ⟨own criteria ++ ran, rest ++ (known.split (guards criteria)).2, ?_, ?_, ?_, ?_, ?_,
        ?_⟩
      · rw [List.map_append, List.map_append, hsaid, hran]
      · rw [List.map_append, hrest]
      · intro guard hmem
        refine hguard guard ((List.mem_filter.mp (hsplit.mem_iff.mp ?_)).1)
        rw [List.append_assoc]
        exact List.mem_append_right ran hmem
      · intro _
        have hall := (hsplit.append_left (own criteria)).trans (parted criteria known.counts
          (hown known))
        simpa [List.append_assoc] using hall
      · exact fun h => absurd hgreen h
      · exact fun h => absurd (fun c hc => h c (List.mem_append_right _ hc)) hnot
    | false =>
      have hran_ok : allGreen exit memo ran := hred'.mp hsecond
      obtain rfl : rest = [] := hend (hran_green.mpr hran_ok)
      rw [List.append_nil] at hready
      have hwaits : Waits exit known criteria memo := ⟨hgreen, hready ▸ hran_ok⟩
      obtain ⟨last, left, hjudged, hlast, hleft, -, hdone⟩ :=
        runUntilRed_spec exit ((known.after answers).judging (known.split (guards criteria)).2)
          (runUntilRed exit (known.split (guards criteria)).1
            (runOn exit (own criteria) memo).2).2.2
      have hagain := hmemo.trans hanswer
      rw [saidOf_congr exit hagain] at hlast
      have hcheck : postCheck exit known answers criteria memo =
          ⟨(runOn exit (own criteria) memo).1 ++ (runUntilRed exit (known.split (guards criteria)).1
              (runOn exit (own criteria) memo).2).1 ++
              (runUntilRed exit ((known.after answers).judging (known.split (guards criteria)).2)
                (runUntilRed exit (known.split (guards criteria)).1
                  (runOn exit (own criteria) memo).2).2.2).1,
            (runUntilRed exit ((known.after answers).judging (known.split (guards criteria)).2)
              (runUntilRed exit (known.split (guards criteria)).1
                (runOn exit (own criteria) memo).2).2.2).2.1⟩ := by
        rw [postCheck, hpartition]
        simp [hfirst, hsecond]
      have hsplit := @judging_perm known answers criteria
      rw [hready, hjudged] at hsplit
      rw [hcheck, recorded, if_pos hwaits]
      refine ⟨own criteria ++ ran ++ last, left, ?_, hleft, ?_, ?_, ?_, ?_⟩
      · rw [List.map_append, List.map_append, List.map_append, List.map_append, hsaid, hran, hlast]
      · intro guard hmem
        refine hguard guard ((List.mem_filter.mp (hsplit.mem_iff.mp ?_)).1)
        exact List.mem_append_right ran (List.mem_append_right last hmem)
      · intro _
        have hall := (hsplit.append_left (own criteria)).trans (parted criteria
          (known.after answers).counts (hown (known.after answers)))
        simpa [List.append_assoc] using hall
      · exact fun h => absurd hgreen h
      · intro h
        refine hdone fun c hc => ?_
        rw [hagain]
        exact h c (List.mem_append_right _ hc)

/-! ## When the check says what it did -/

/-- **A faithful check**, against the measurement on record when it ends:

    - it passes exactly when every criterion that counts exits 0;
    - what ran and what waits make up the criteria that count;
    - each command stands once, among what ran or among what waits. -/
structure Faithful (criteria : List Criterion) (memo : TreeMemo) (check : PostCheck) : Prop where
  passes : check.passes = true ↔ ∀ c ∈ criteria,
    (recorded exit known answers criteria memo).counts c = true → answer exit memo c.cmd = 0
  parts : (check.runs.map (fun run => (run.cmd, run.isGuard)) ++
      check.waiting.map fun cmd => (cmd, true)).Perm
    ((criteria.filter (recorded exit known answers criteria memo).counts).map
      fun c => (c.cmd, c.isGuard))
  once : (check.runs.map (·.cmd) ++ check.waiting).Nodup

/-- Where the check says what it did: no red criterion of the task's own meets a guard measured red,
    and the criteria that count have commands of their own. -/
def Clear (criteria : List Criterion) (memo : TreeMemo) : Prop :=
  ((∀ c ∈ criteria, c.isGuard = false → answer exit memo c.cmd = 0) ∨
    ∀ c ∈ criteria, c.isGuard = true →
      (recorded exit known answers criteria memo).red c.cmd = false) ∧
  ((criteria.filter (recorded exit known answers criteria memo).counts).map (·.cmd)).Nodup

theorem allGreen_own_iff {criteria : List Criterion} {memo : TreeMemo} :
    allGreen exit memo (own criteria) ↔
      ∀ c ∈ criteria, c.isGuard = false → answer exit memo c.cmd = 0 := by
  simp [allGreen, own]

/-- **The check passes exactly when the work does**: every criterion that counts exits 0. -/
theorem passes_iff (criteria : List Criterion) (memo : TreeMemo) :
    (postCheck exit known answers criteria memo).passes = true ↔ ∀ c ∈ criteria,
      (recorded exit known answers criteria memo).counts c = true → answer exit memo c.cmd = 0 := by
  obtain ⟨ran, rest, hran, hrest, -, hperm, hred, hend⟩ :=
    postCheck_spec exit known answers criteria memo
  have hpasses : (postCheck exit known answers criteria memo).passes = true ↔
      allGreen exit memo ran := by
    have hgreen := anyRed_iff hran
    have hall : ((postCheck exit known answers criteria memo).runs.all fun run =>
        run.exitCode = 0) = true ↔
          anyRed (postCheck exit known answers criteria memo).runs = false := by
      simp [anyRed]
    rw [PostCheck.passes, Bool.and_eq_true, hall, hgreen, hrest]
    exact ⟨fun h => h.2, fun h => ⟨by rw [hend h]; rfl, h⟩⟩
  rw [hpasses]
  by_cases hown : allGreen exit memo (own criteria)
  · have hsame := hperm hown
    constructor
    · intro hgreen c hc hcounts
      have hmem := hsame.mem_iff.mpr (List.mem_filter.mpr ⟨hc, hcounts⟩)
      rw [hend hgreen, List.append_nil] at hmem
      exact hgreen c hmem
    · intro hcounts c hc
      obtain ⟨hmem, hcount⟩ := List.mem_filter.mp (hsame.mem_iff.mp (List.mem_append_left rest hc))
      exact hcounts c hmem hcount
  · obtain ⟨rfl, -⟩ := hred hown
    refine ⟨fun hgreen => absurd hgreen hown, fun hcounts => ?_⟩
    refine absurd ((allGreen_own_iff exit).mpr fun c hc hguard => hcounts c hc ?_) hown
    simp [Known.counts, hguard]

/-- **When the check says what it did**, for any criteria, any answers of their commands, and any
    measurement of the guards. -/
theorem postCheck_faithful_iff (criteria : List Criterion) (memo : TreeMemo) :
    Faithful exit known answers criteria memo (postCheck exit known answers criteria memo) ↔
      Clear exit known answers criteria memo := by
  obtain ⟨ran, rest, hran, hrest, hguards, hperm, hred, hend⟩ :=
    postCheck_spec exit known answers criteria memo
  let counted := criteria.filter (recorded exit known answers criteria memo).counts
  have hkinds : (postCheck exit known answers criteria memo).runs.map
      (fun run => (run.cmd, run.isGuard)) = ran.map fun c => (c.cmd, c.isGuard) := by
    have hmapped := congrArg (List.map fun said : String × Bool × Int => (said.1, said.2.1)) hran
    simpa [Function.comp_def, CriterionRun.said, saidOf] using hmapped
  have hcmds : (postCheck exit known answers criteria memo).runs.map (·.cmd) = ran.map (·.cmd) := by
    have hmapped := congrArg (List.map fun kind : String × Bool => kind.1) hkinds
    simpa [Function.comp_def] using hmapped
  have hwaiting : (postCheck exit known answers criteria memo).waiting.map
      (fun cmd => (cmd, true)) = rest.map fun c => (c.cmd, c.isGuard) := by
    rw [hrest, List.map_map]
    exact List.map_congr_left fun c hc => by simp [hguards c hc]
  -- Where the task's own criteria pass, or no guard is measured red, what stands is what counts.
  have hstands : ((∀ c ∈ criteria, c.isGuard = false → answer exit memo c.cmd = 0) ∨
      ∀ c ∈ criteria, c.isGuard = true →
        (recorded exit known answers criteria memo).red c.cmd = false) →
      (ran ++ rest).Perm counted := by
    intro hclear
    by_cases hown : allGreen exit memo (own criteria)
    · exact hperm hown
    · obtain ⟨rfl, rfl⟩ := hred hown
      have hnone := hclear.resolve_left fun h => hown ((allGreen_own_iff exit).mpr h)
      have hall : counted = criteria := by
        refine List.filter_eq_self.mpr fun c hc => ?_
        cases hguard : c.isGuard
        · simp [Known.counts, hguard]
        · simp [Known.counts, hnone c hc hguard]
      rw [hall]
      have hboth : (guards criteria ++ own criteria).Perm criteria :=
        List.filter_append_perm (fun c : Criterion => c.isGuard) criteria
      exact List.perm_append_comm.trans hboth
  constructor
  · intro h
    have hclear : (∀ c ∈ criteria, c.isGuard = false → answer exit memo c.cmd = 0) ∨
        ∀ c ∈ criteria, c.isGuard = true →
          (recorded exit known answers criteria memo).red c.cmd = false := by
      by_cases hown : allGreen exit memo (own criteria)
      · exact Or.inl ((allGreen_own_iff exit).mp hown)
      · obtain ⟨rfl, rfl⟩ := hred hown
        have hlen := h.parts.length_eq
        rw [hkinds, hwaiting, ← List.map_append, List.length_map, List.length_map] at hlen
        have hboth : (guards criteria ++ own criteria).Perm criteria :=
          List.filter_append_perm (fun c : Criterion => c.isGuard) criteria
        have hfull : counted.length = criteria.length := by
          have hall := hboth.length_eq
          have hcounted : (own criteria ++ guards criteria).length = counted.length := hlen
          rw [List.length_append] at hall hcounted
          omega
        refine Or.inr fun c hc hguard => ?_
        have hcounts := List.length_filter_eq_length_iff.mp hfull c hc
        simpa [Known.counts, hguard] using hcounts
    refine ⟨hclear, ?_⟩
    have honce := h.once
    rw [hcmds, hrest, ← List.map_append] at honce
    exact ((hstands hclear).map (·.cmd)).nodup_iff.mp honce
  · rintro ⟨hclear, hnodup⟩
    refine ⟨passes_iff exit known answers criteria memo, ?_, ?_⟩
    · rw [hkinds, hwaiting, ← List.map_append]
      exact (hstands hclear).map _
    · rw [hcmds, hrest, ← List.map_append]
      exact ((hstands hclear).map (·.cmd)).nodup_iff.mpr hnodup

end

/-- A criterion of the task's own, red, beside a guard measured red before the work: the guard is
    said to wait. -/
theorem not_faithful :
    let criteria : List Criterion := [⟨"own", none, none⟩, ⟨"suite", some .guard, none⟩]
    let known : Known := ⟨fun _ => false, fun cmd => if cmd = "suite" then some false else none⟩
    ¬ Faithful (fun _ => 1) known (fun _ => none) criteria (fun _ => none)
      (postCheck (fun _ => 1) known (fun _ => none) criteria fun _ => none) := by
  intro criteria known h
  have hlen := h.parts.length_eq
  revert hlen
  decide +kernel

end Yunta.Criteria
