/-
  What a run already knows its commands answered.

  1. **Keys** — an answer is kept under a hash of its command, the tree it was given on, the commit
     that tree stood on when the command runs git, and the config.  Two keys hashed from one text are
     of the same command on the same tree (`keyText_inj`).

  2. **The log's answers** — `answers` reads back what earlier invocations answered, where it still
     speaks: it names its tree, it answered at all, and the invocation that wrote it ran its commands
     with the environment this one runs them with.

  3. **Seeding** — a wake takes those answers in, a later one over an earlier one of the same key
     (`seed_answers`).

  Two things stand outside and are parameters: the hash (`sha256Hex`), and the hash of the resolved
  config.  Which commands run git is read off them as a shell splits them (`asksGit`), which misses
  one behind a keyword or a path.
-/
import Yunta.Ledgers.Run
import Yunta.Shell.Scanner
import Mathlib.Logic.Function.Basic
import Mathlib.Data.List.Induction

set_option linter.unusedVariables false

namespace Yunta.Criteria

/-! ## Which commands run git -/

/-- Words a shell answers itself. -/
def SHELL_WORDS : List String :=
  ["if", "then", "else", "elif", "fi", "for", "while", "until", "do", "done", "case", "esac",
   "in", "function", "select", "time", "[", "[[", "]]", "test", "cd", "echo", "printf", "export",
   "set", "unset", "source", ".", "eval", "exec", "exit", "return", "read", "pwd", "true",
   "false", ":", "local", "shift", "trap", "wait", "command", "type", "alias", "ulimit", "umask",
   "break", "continue", "declare", "readonly", "let", "builtin", "hash", "jobs", "kill",
   "getopts"]

def isProgram (word : List Char) : Bool :=
  word ≠ [] && !word.head?.any (['#', '-'].contains ·) &&
    !word.any (['/', '$', '`', '{', '}', '<', '>', '(', ')', '"', '\'', '\\', '='].contains ·) &&
    !SHELL_WORDS.contains (.ofList word)

/-- The first word of every simple command in `script`, as a shell splits it into commands, where
    that is a name to look up. -/
def leadingPrograms (script : String) : List String :=
  (Shell.Scanner.run script.toList .commands).filterMap fun command =>
    ((Text.splitWhitespace command).find? fun word =>
      !word.contains '=' &&
        !(["!", "\x7b", "(", "then", "do", "else", "time"].contains (.ofList word))).bind fun first =>
    let program := first.dropWhile (['(', '{'].contains ·)
    if isProgram program then some (.ofList program) else none

/-- Whether `cmd` runs `git`, as its leading programs say. -/
def asksGit (cmd : String) : Bool := (leadingPrograms cmd).any (· = "git")

/-! ## Answers -/

/-- Why a command gave no answer of its own. -/
inductive Unanswered where
  | notFound | notExecutable | stopped
  deriving DecidableEq

/-- What an exit code says when the command never answered. -/
def Unanswered.of (exitCode : Int) : Option Unanswered :=
  if exitCode = 127 then some .notFound
  else if exitCode = 126 then some .notExecutable
  else if exitCode = -2 then some .stopped
  else none

/-- What a checkout holds, and the commit it stands on when a command that runs git asked. -/
structure Tree where
  content : TreeId
  head : Option CommitSha
  deriving DecidableEq

/-- Git's own names: no NUL byte in them. -/
def Tree.plain (tree : Tree) : Bool :=
  !tree.content.toList.contains '\x00' && tree.head.all fun head => !head.toList.contains '\x00'

/-- A criterion's result, as the memo reads it back. -/
structure Answered where
  cmd : String
  exitCode : Int
  reused : Bool
  tree : Option TreeId
  head : Option CommitSha
  deriving DecidableEq

/-- What the memo reads of an event, by its kind. -/
inductive Entry where
  | run (event : RunEvent)
  | criteriaChecked (results : List Answered)
  | checkAnswered (results : List Answered)
  | submitted (probes : List (List Answered))
  /-- A person chose to run a failed node again. -/
  | chosen (node : NodeId)
  | other

structure Logged where
  seq : Nat
  entry : Entry

/-- One answer the log holds, as the memo keeps it. -/
structure Recorded where
  cmd : String
  tree : Tree
  exitCode : Int

/-- The tree an answer of `cmd` is kept for: none for a command that runs git and recorded no
    commit. -/
def held (cmd : String) (content : TreeId) (head : Option CommitSha) : Option Tree :=
  if asksGit cmd && head.isNone then none else some ⟨content, head⟩

/-- A criterion's recorded answer, when it is one the memo can take. -/
def ofResult (result : Answered) : Option Recorded :=
  if (Unanswered.of result.exitCode).isSome then none
  else result.tree.bind fun content =>
    (held result.cmd content result.head).map fun tree =>
      ⟨result.cmd, tree, result.exitCode⟩

/-- The suite's answer on the tree this run measured it on. -/
def measurement (measured : BaselineCapturedPayload) : Option Recorded :=
  if measured.origin ≠ .measured ∨ measured.results.exitCode ≠ 0 then none
  else measured.tree.bind fun content =>
    (held measured.command content none).map fun tree => ⟨measured.command, tree, 0⟩

/-- The answers one event recorded. -/
def ofEvent : Entry → List Recorded
  | .criteriaChecked results | .checkAnswered results => results.filterMap (ofResult)
  | .submitted probes => probes.flatten.filterMap (ofResult)
  | .run (.baselineCaptured measured) => (measurement measured).toList
  | _ => []

end Yunta.Criteria

namespace Yunta.RunLedger

/-- What the run's commands ran with at `seq`: what the invocation that wrote it recorded. -/
def environmentAt (run : RunLedger) (seq : Nat) : Option ExecutionEnvironment :=
  (run.invocations.reverse.find? fun invocation => invocation.1 ≤ seq).bind (·.2)

/-- What the run's commands run with in its latest invocation. -/
def environmentNow (run : RunLedger) : Option ExecutionEnvironment :=
  run.invocations.getLast?.bind (·.2)

end Yunta.RunLedger

namespace Yunta.Criteria

/-- Every answer `events` recorded that still speaks for the invocation running now. -/
def answers (events : List Logged) (run : RunLedger) : List Recorded :=
  match run.environmentNow with
  | none => []
  | some now =>
    (events.filter fun event => run.environmentAt event.seq = some now).flatMap fun event =>
      ofEvent event.entry

/-! ## The cache -/

/-- The commit an answer of `cmd` turns on: nothing for a command that does not run git. -/
def headFor (cmd : String) (tree : Tree) : String :=
  if asksGit cmd then tree.head.getD "" else ""

section
variable (sha256Hex : String → ContentHash) (configHash : ContentHash)

/-- The text a key is hashed from. -/
def keyText (cmd : String) (content : TreeId) (head : String) : String :=
  cmd ++ "\x00" ++ content ++ "\x00" ++ head ++ "\x00" ++ configHash

def key (cmd : String) (tree : Tree) : ContentHash :=
  sha256Hex (keyText configHash cmd tree.content (headFor cmd tree))

/-- The exit codes the memo holds, by key. -/
abbrev Cache := ContentHash → Option Int

/-- Remembers what a command answered, unless it could not run at all. -/
def put (cache : Cache) (key : ContentHash) (exitCode : Int) : Cache :=
  if (Unanswered.of exitCode).isSome then cache else Function.update cache key (some exitCode)

/-- Lets go of every red answer. -/
def forgetFailures (cache : Cache) : Cache := fun key => (cache key).filter (· = 0)

/-- Remembers that `cmd` passed on `tree`, measured by a caller rather than a check. -/
def passedOn (cache : Cache) (cmd : String) (tree : Tree) : Cache :=
  Function.update cache (key sha256Hex configHash cmd tree) (some 0)

/-- Takes in what earlier invocations answered. -/
def seed (cache : Cache) (answers : List Recorded) : Cache :=
  answers.foldl (fun cache answer =>
    Function.update cache (key sha256Hex configHash answer.cmd answer.tree)
      (some answer.exitCode)) cache

end

/-! ## One key, one command on one tree -/

theorem Tree.plain_content {tree : Tree} (h : tree.plain = true) : '\x00' ∉ tree.content.toList := by
  have hcontent := (Bool.and_eq_true_iff.mp h).1
  simpa using hcontent

theorem Tree.plain_headFor {tree : Tree} (h : tree.plain = true) (cmd : String) : '\x00' ∉ (headFor cmd tree).toList := by
  have hhead := (Bool.and_eq_true_iff.mp h).2
  unfold headFor
  split
  · cases hsome : tree.head with
    | none => simp
    | some head => simpa [hsome] using hhead
  · simp

/-- **Two keys hashed from one text** are of the same command, on the same tree, at the same commit if
    the command runs git. -/
theorem keyText_inj {configHash : ContentHash} {cmd cmd' : String}
    {tree tree' : Tree} (hplain : tree.plain = true) (hplain' : tree'.plain = true)
    (h : keyText configHash cmd tree.content (headFor cmd tree) =
      keyText configHash cmd' tree'.content (headFor cmd' tree')) :
    cmd = cmd' ∧ tree.content = tree'.content ∧
      headFor cmd tree = headFor cmd' tree' := by
  have hsep : "\x00".toList = ['\x00'] := by decide +kernel
  have hjoin : ∀ x z : List Char, x ++ "\x00".toList ++ z = x ++ '\x00' :: z := fun x z => by
    rw [hsep, List.append_assoc, List.singleton_append]
  have htext := congrArg String.toList h
  simp only [keyText, String.toList_append] at htext
  -- the config is the same text, and each separator before it is the last one of what is left
  have hkept := List.append_cancel_right (List.append_cancel_right htext)
  simp only [hjoin] at hkept
  obtain ⟨hkept, hhead⟩ := Text.append_last_inj (Tree.plain_headFor hplain cmd)
    (Tree.plain_headFor hplain' cmd') hkept
  obtain ⟨hcmd, hcontent⟩ := Text.append_last_inj (Tree.plain_content hplain)
    (Tree.plain_content hplain') hkept
  exact ⟨String.toList_inj.mp hcmd, String.toList_inj.mp hcontent, String.toList_inj.mp hhead⟩

/-! ## The environment an event was written with -/

end Yunta.Criteria

namespace Yunta.RunLedger

/-- A wake begins an invocation. -/
theorem resumed_invocations (run : RunLedger) (p : RunResumedPayload) (m : EventMeta) :
    (run.apply (.resumed p) m).invocations = run.invocations ++ [(m.seq, p.environment)] := by
  cases hcheckout : p.checkout <;> simp [apply, resumed, hcheckout]

variable {run run' : RunLedger}

theorem environmentAt_congr (h : run'.invocations = run.invocations) (seq : Nat) :
    run'.environmentAt seq = run.environmentAt seq := by
  rw [environmentAt, h, environmentAt]

theorem environmentNow_congr (h : run'.invocations = run.invocations) :
    run'.environmentNow = run.environmentNow := by
  rw [environmentNow, h, environmentNow]

/-- What was written before an invocation began was written with what ran then. -/
theorem environmentAt_before {began seq : Nat} {environment : Option ExecutionEnvironment}
    (h : run'.invocations = run.invocations ++ [(began, environment)]) (hseq : seq < began) :
    run'.environmentAt seq = run.environmentAt seq := by
  have hnot : ¬ began ≤ seq := Nat.not_le.mpr hseq
  rw [environmentAt, h, List.reverse_append, List.reverse_singleton, List.singleton_append,
    List.find?_cons_of_neg (by simpa using hnot), environmentAt]

/-- What is written after every invocation began is written with what runs now. -/
theorem environmentAt_last {seq : Nat} (h : ∀ invocation ∈ run.invocations, invocation.1 ≤ seq) :
    run.environmentAt seq = run.environmentNow := by
  rw [environmentAt, environmentNow, ← List.head?_reverse]
  cases hreverse : run.invocations.reverse with
  | nil => rfl
  | cons last rest =>
    have hmem : last ∈ run.invocations := by
      rw [← List.mem_reverse, hreverse]
      exact List.mem_cons_self
    rw [List.find?_cons_of_pos (by simpa using h last hmem), List.head?_cons]

theorem environmentNow_append {began : Nat} {environment : Option ExecutionEnvironment}
    (h : run'.invocations = run.invocations ++ [(began, environment)]) :
    run'.environmentNow = environment := by
  rw [environmentNow, h, List.getLast?_concat]
  rfl

end Yunta.RunLedger

namespace Yunta.Criteria

/-! ## What a log's answers say -/

theorem ofResult_some {result : Answered} {r : Recorded} (h : ofResult result = some r) :
    ∃ content, result.tree = some content ∧ r = ⟨result.cmd, ⟨content, result.head⟩, result.exitCode⟩ ∧
      Unanswered.of r.exitCode = none := by
  unfold ofResult at h
  split at h
  · cases h
  · next hanswered =>
    obtain ⟨content, hcontent, hheld⟩ := Option.bind_eq_some_iff.mp h
    obtain ⟨tree, htree, rfl⟩ := Option.map_eq_some_iff.mp hheld
    unfold held at htree
    split at htree
    · cases htree
    · obtain rfl := Option.some.inj htree
      exact ⟨content, hcontent, rfl, by simpa using hanswered⟩

theorem measurement_some {p : BaselineCapturedPayload} {r : Recorded}
    (h : measurement p = some r) :
    ∃ content, p.tree = some content ∧ r = ⟨p.command, ⟨content, none⟩, 0⟩ ∧
      asksGit p.command = false ∧ p.origin = .measured ∧ p.results.exitCode = 0 := by
  unfold measurement at h
  split at h
  · cases h
  · next hpassed =>
    obtain ⟨content, hcontent, hheld⟩ := Option.bind_eq_some_iff.mp h
    obtain ⟨tree, htree, rfl⟩ := Option.map_eq_some_iff.mp hheld
    unfold held at htree
    split at htree
    · cases htree
    · next hgit =>
      obtain rfl := Option.some.inj htree
      obtain ⟨horigin, hexit⟩ := not_or.mp hpassed
      exact ⟨content, hcontent, rfl, by simpa using hgit, not_not.mp horigin, not_not.mp hexit⟩

/-- What an event recorded answered. -/
theorem ofEvent_answered {entry : Entry} {r : Recorded} (h : r ∈ ofEvent entry) :
    Unanswered.of r.exitCode = none := by
  have hresults : ∀ {results : List Answered}, r ∈ results.filterMap (ofResult) →
      Unanswered.of r.exitCode = none := fun hmem => by
    obtain ⟨result, -, hr⟩ := List.mem_filterMap.mp hmem
    exact (ofResult_some hr).choose_spec.2.2
  cases entry with
  | criteriaChecked results => exact hresults h
  | checkAnswered results => exact hresults h
  | submitted probes => exact hresults h
  | run event =>
    cases event with
    | baselineCaptured p =>
      obtain ⟨content, -, rfl, -⟩ := measurement_some (Option.mem_toList.mp h)
      rfl
    | _ => cases h
  | _ => cases h

section
variable {sha256Hex : String → ContentHash} {configHash : ContentHash}

theorem seed_append (cache : Cache) (first second : List Recorded) :
    seed sha256Hex configHash cache (first ++ second) =
      seed sha256Hex configHash (seed sha256Hex configHash cache first) second :=
  List.foldl_append

/-- A key the memo holds after taking answers in is one of theirs, or one it held. -/
theorem seed_cases {cache : Cache} {taken : List Recorded} {k : ContentHash} {exitCode : Int}
    (h : seed sha256Hex configHash cache taken k = some exitCode) :
    (∃ r ∈ taken, key sha256Hex configHash r.cmd r.tree = k ∧ r.exitCode = exitCode) ∨
      cache k = some exitCode ∧
        ∀ r ∈ taken, key sha256Hex configHash r.cmd r.tree ≠ k := by
  induction taken generalizing cache with
  | nil => exact .inr ⟨h, by simp⟩
  | cons r rest ih =>
    rcases ih h with ⟨other, hother, hkey⟩ | ⟨hheld, hrest⟩
    · exact .inl ⟨other, List.mem_cons_of_mem _ hother, hkey⟩
    · by_cases hkey : k = key sha256Hex configHash r.cmd r.tree
      · subst hkey
        simp only [Function.update_self] at hheld
        exact .inl ⟨r, List.mem_cons_self, rfl, Option.some.inj hheld⟩
      · simp only [Function.update_of_ne hkey] at hheld
        exact .inr ⟨hheld, List.forall_mem_cons.mpr ⟨fun heq => hkey heq.symm, hrest⟩⟩

/-- **What a seeded memo holds** is an answer of the log, written with the environment that runs now,
    that no later event of that environment answered again. -/
theorem seed_answers {events : List Logged} {run : RunLedger} {k : ContentHash} {exitCode : Int}
    (hsorted : events.Pairwise fun earlier later => earlier.seq < later.seq)
    (h : seed sha256Hex configHash (fun _ => none) (answers events run) k =
      some exitCode) :
    ∃ now, run.environmentNow = some now ∧ ∃ event ∈ events,
      run.environmentAt event.seq = some now ∧
      (∃ r ∈ ofEvent event.entry,
        key sha256Hex configHash r.cmd r.tree = k ∧ r.exitCode = exitCode) ∧
      ∀ later ∈ events, event.seq < later.seq → run.environmentAt later.seq = some now →
        ∀ r ∈ ofEvent later.entry, key sha256Hex configHash r.cmd r.tree ≠ k := by
  unfold answers at h
  cases hnow : run.environmentNow with
  | none => rw [hnow] at h; cases h
  | some now =>
    refine ⟨now, rfl, ?_⟩
    simp only [hnow] at h
    -- the latest event of the environment that answers the key decides it
    induction events using List.reverseRecOn with
    | nil => cases h
    | append_singleton events event ih =>
      obtain ⟨hbefore, -, hlast⟩ := List.pairwise_append.mp hsorted
      rw [List.filter_append, List.flatMap_append, seed_append] at h
      rcases seed_cases h with ⟨r, hr, hkey⟩ | ⟨hheld, hnone⟩
      · have hevent : run.environmentAt event.seq = some now ∧ r ∈ ofEvent event.entry := by
          by_cases hwritten : run.environmentAt event.seq = some now
          · exact ⟨hwritten, by simpa [hwritten] using hr⟩
          · simp [hwritten] at hr
        refine ⟨event, by simp, hevent.1, ⟨r, hevent.2, hkey⟩, fun later hlater hseq => ?_⟩
        rcases List.mem_append.mp hlater with hlater | hlater
        · exact absurd (hlast later hlater event List.mem_cons_self) (Nat.lt_asymm hseq)
        · rw [List.mem_singleton.mp hlater] at hseq
          exact absurd hseq (Nat.lt_irrefl _)
      · obtain ⟨found, hfound, hwritten, hanswer, hlatest⟩ := ih hbefore hheld
        refine ⟨found, List.mem_append_left _ hfound, hwritten, hanswer,
          fun later hlater hseq hlaterAt r hr => ?_⟩
        rcases List.mem_append.mp hlater with hlater | hlater
        · exact hlatest later hlater hseq hlaterAt r hr
        · obtain rfl := List.mem_singleton.mp hlater
          exact hnone r (by simpa [hlaterAt] using hr)

end

end Yunta.Criteria
