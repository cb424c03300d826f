/-
  The fence: which of a session's writes its scope admits, beside the audit of what it changed.

  1. **The fence** — `judge` resolves a target lexically and reads no disk: a protected path is refused,
     one under a writable root is allowed, and one under the worktree is the scope's to admit.

  2. **The audit** — `violations` reads the paths git names, and `Protected.trespasses` the same.

  3. **Main result** — `judge_audited`: what the fence allows under the worktree, by any spelling, is
     no violation and no trespass once git names it.
-/
import Yunta.Scope.Closing

set_option linter.unusedVariables false

namespace Yunta

/-! ## The fence -/

/-- What the session's file tools may write under the checkout. -/
inductive WorktreeWrites where
  | nothing | exactFiles | all
  deriving DecidableEq

/-- What a refusal tells the model to do instead. -/
inductive Advice where
  | requestExpansion | reportFinding
  deriving DecidableEq

inductive PermissionProfile where
  | readOnly | edit | full
  deriving DecidableEq

/-- What one session may reach, as far as the fence reads it. -/
structure Confinement (builds : List ScopeGlob → Bool) where
  worktree : WorktreeWrites
  /-- The artifact directory, and the shared ones unless read-only. -/
  roots : List String
  protected_ : Protected builds

/-- Whether the session's file tools may write under the checkout at all. -/
def Confinement.writesWorktree {builds : List ScopeGlob → Bool} (c : Confinement builds) : Bool :=
  c.worktree ≠ .nothing

/-- What a session's file tools may write under the worktree: every path where `allowed` is `none`, and
    the paths its globs select otherwise. -/
structure Fence where
  allowed : Option (List ScopeGlob)
  advice : Advice

/-- A write that will not happen, and why. -/
structure Refusal where
  target : String
  worktree : String
  allowed : Option (List ScopeGlob)
  roots : List String
  advice : Advice
  protection : Option Protection
  deriving DecidableEq

inductive Verdict where
  | allowed
  | refused (refusal : Refusal)
  deriving DecidableEq

/-- Whether a worktree-relative path is the git register: its first component that is no `.` is
    `.git`. -/
def isRegister (relative : String) : Bool :=
  (Paths.components relative).find? (· ≠ .cur) = some (.name ['.', 'g', 'i', 't'])

variable {builds : List ScopeGlob → Bool}

/-- The reason a worktree-relative path is refused whatever the scope admits: the set's, else the
    run's own register. -/
def protectionOf (selects : ScopeGlob → String → Bool) (set : Protected builds) (relative : String) :
    Option Protection :=
  set.reasonOf selects relative <|> if isRegister relative then some .gitRegister else none

namespace Fence

/-- Everything under the worktree. -/
def everything (advice : Advice) : Fence := ⟨none, advice⟩

/-- The fence one session runs behind.  A read-only profile admits nothing under the worktree. -/
def forSession (profile : PermissionProfile) (scope : Option (List ScopeGlob))
    (granted : List ScopeGlob) (advice : Advice) : Fence :=
  match profile, scope with
  | .readOnly, _ => ⟨some [], advice⟩
  | _, none => everything advice
  | _, some scope => ⟨some (scope ++ granted), advice⟩

/-- Whether the scope admits a path no protection holds: under the worktree alone, where the
    confinement writes it and the scope names it.  A scope that does not build names nothing. -/
def admits (fence : Fence) (selects : ScopeGlob → String → Bool) (confinement : Confinement builds) :
    Option String → Bool
  | none => false
  | some relative =>
    if confinement.writesWorktree = false then false
    else
      match fence.allowed with
      | none => true
      | some globs => builds globs && globs.any fun glob => selects glob relative

/-- The ceiling a refusal reports: the scope's, or nothing when the confinement writes no
    worktree. -/
def worktreeCeiling (fence : Fence) (confinement : Confinement builds) : Option (List ScopeGlob) :=
  if confinement.writesWorktree then fence.allowed else some []

/-- Whether `target` is inside the fence and the confinement. -/
def judge (fence : Fence) (selects : ScopeGlob → String → Bool) (worktree target : String)
    (confinement : Confinement builds) : Verdict :=
  let target := Paths.lexicalAbsolute worktree target
  let inside := Paths.stripPrefix target worktree
  let protection := inside.bind (protectionOf selects confinement.protected_)
  let allowed := protection.isNone &&
    (confinement.roots.any (Paths.startsWith target) || fence.admits selects confinement inside)
  if allowed then .allowed
  else .refused ⟨target, worktree, fence.worktreeCeiling confinement, confinement.roots, fence.advice,
    protection⟩

end Fence

/-! ## The audit -/

inductive ScopeCheckError where
  /-- The one failure left to globs that each compiled: more than one set can hold. -/
  | globSet
  deriving DecidableEq

/-- What a diff and a declared scope mean together: a change under a staged path is never a
    violation. -/
def violations (builds : List ScopeGlob → Bool) (selects : ScopeGlob → String → Bool)
    (diff : List String) (scope : List ScopeGlob) (mounts : List String) :
    Except ScopeCheckError (List String) :=
  if builds scope then
    .ok ((diff.filter fun path => !staged mounts path).filter fun path =>
      !scope.any fun glob => selects glob path)
  else .error .globSet

section
variable {selects : ScopeGlob → String → Bool} {set : Protected builds} {relative : String}
  {fence : Fence} {confinement : Confinement builds} {worktree target : String} {mounts : List String}

/-- A path nothing protects is no trespass, at any closing. -/
theorem trespasses_nil (h : set.reasonOf selects relative = none) (closing : Closing) :
    set.trespasses selects [relative] mounts closing = [] := by
  refine List.eq_nil_iff_forall_not_mem.mpr fun t ht => ?_
  obtain ⟨hpath, -, -, hreason⟩ := Protected.mem_trespasses.mp ht
  rw [List.mem_singleton.mp hpath, h] at hreason
  cases hreason

/-- A path the scope selects is no violation of it. -/
theorem violations_nil {scope : List ScopeGlob} (hbuilds : builds scope = true)
    (h : scope.any (fun glob => selects glob relative) = true) :
    violations builds selects [relative] scope mounts = .ok [] := by
  rw [violations, if_pos hbuilds]
  congr 1
  refine List.filter_eq_nil_iff.mpr fun path hpath => ?_
  rw [List.mem_singleton.mp (List.mem_filter.mp hpath).1, h]
  simp

/-- **What the fence allows** under the worktree and outside its roots: nothing protects it, and the
    scope admits it. -/
theorem judge_allowed (h : fence.judge selects worktree target confinement = .allowed)
    (hinside : Paths.stripPrefix (Paths.lexicalAbsolute worktree target) worktree = some relative)
    (houtside : ∀ root ∈ confinement.roots,
      Paths.startsWith (Paths.lexicalAbsolute worktree target) root = false) :
    confinement.protected_.reasonOf selects relative = none ∧
      fence.admits selects confinement (some relative) = true := by
  rw [Fence.judge, hinside] at h
  split at h
  · next hallowed =>
    rw [Bool.and_eq_true, Bool.or_eq_true, Option.bind_some, Option.isNone_iff_eq_none] at hallowed
    obtain ⟨hprotection, hroot | hadmits⟩ := hallowed
    · obtain ⟨root, hroot, hstarts⟩ := List.any_eq_true.mp hroot
      rw [houtside root hroot] at hstarts
      cases hstarts
    · refine ⟨?_, hadmits⟩
      cases hreason : confinement.protected_.reasonOf selects relative with
      | none => rfl
      | some protection =>
        rw [protectionOf, hreason] at hprotection
        cases hprotection
  · cases h

end

/-- **The write fence and the closing audit agree**: a target the fence allows, by any spelling, in the
    worktree and outside the fence's own roots, is neither a violation of the same scope nor a trespass
    of the same set; and what the audit reads of it are the names below the worktree. -/
theorem judge_audited (selects : ScopeGlob → String → Bool) (fence : Fence)
    (confinement : Confinement builds) (worktree target relative : String)
    (hallowed : fence.judge selects worktree target confinement = .allowed)
    (hinside : Paths.stripPrefix (Paths.lexicalAbsolute worktree target) worktree = some relative)
    (houtside : ∀ root ∈ confinement.roots,
      Paths.startsWith (Paths.lexicalAbsolute worktree target) root = false) :
    (∀ scope, fence.allowed = some scope → ∀ mounts,
      violations builds selects [relative] scope mounts = .ok []) ∧
    (∀ mounts closing,
      confinement.protected_.trespasses selects [relative] mounts closing = []) ∧
    (Paths.components worktree ≠ [] →
      Paths.Names (Paths.components relative) ∧
        Paths.components (Paths.lexicalAbsolute worktree target) =
          Paths.components worktree ++ Paths.components relative) := by
  obtain ⟨hnone, hadmits⟩ := judge_allowed hallowed hinside houtside
  refine ⟨fun scope hscope mounts => ?_, fun mounts closing => trespasses_nil hnone closing,
    fun hworktree => Paths.names_of_stripPrefix (Paths.components_lexicalAbsolute worktree target)
      hworktree hinside⟩
  rw [Fence.admits] at hadmits
  split at hadmits
  · cases hadmits
  · rw [hscope, Bool.and_eq_true] at hadmits
    exact violations_nil hadmits.1 hadmits.2

theorem judge_audited_respelled :
    let set : Protected fun _ => true := .denying ["secrets/**"]
    let fence := Fence.forSession .edit (some ["src/**"]) [] .reportFinding
    let confinement : Confinement fun _ => true := ⟨.exactFiles, ["/work/run-1/out"], set⟩
    (∀ scope, fence.allowed = some scope → ∀ mounts,
      violations (fun _ => true) plainSelects ["src/lib.rs"] scope mounts = .ok []) ∧
    (∀ mounts closing, set.trespasses plainSelects ["src/lib.rs"] mounts closing = []) ∧
    (Paths.components "/work/run-1" ≠ [] →
      Paths.Names (Paths.components "src/lib.rs") ∧
        Paths.components (Paths.lexicalAbsolute "/work/run-1" "./src/../src/lib.rs") =
          Paths.components "/work/run-1" ++ Paths.components "src/lib.rs") :=
  judge_audited plainSelects (.forSession .edit (some ["src/**"]) [] .reportFinding)
    ⟨.exactFiles, ["/work/run-1/out"], .denying ["secrets/**"]⟩ "/work/run-1" "./src/../src/lib.rs"
    "src/lib.rs" (by decide +kernel) (by decide +kernel) (by decide +kernel)

end Yunta
