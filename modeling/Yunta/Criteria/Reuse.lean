/-
  The answers a run reuses, over any sequence of checks, measurements, crashes and wakes.

  1. **The machine** — an invocation answers a command from its memo or by running it, records what
     its checks answered, and loses its memo when it dies; a wake takes the log's answers in.  A
     batch that acts on a person's choice to run a failed node again lets go of every red.

  2. **What a reused answer is** — `Speaks`: the exit code is one the command gave, earlier in the
     run, on what the checkout holds and under an equal environment; it is an answer; and a red one
     was given after the latest choice a batch acted on.

  3. **Main result** — `reused_speaks`: so it is in every run whose commands find the checkout as
     their check read it, run git only where `asksGit` says so, and no wake of which takes back a red
     recorded before the latest batch that let go of them.  Each of the three misleads a check
     (`not_reused_speaks`).
-/
import Yunta.Criteria.Memo
import Yunta.Lib.Machine

set_option linter.unusedVariables false

namespace Yunta.Criteria

open Machine

/-! ## The machine -/

/-- A checkout as a command finds it: what it holds, and the commit it stands on. -/
structure Checkout where
  content : TreeId
  commit : CommitSha
  deriving DecidableEq

/-- An answer a command gave when it ran: on what, with what, and how long the log was. -/
structure Given where
  cmd : String
  found : Checkout
  /-- The commit the memo kept the answer for. -/
  head : String
  exitCode : Int
  environment : Option ExecutionEnvironment
  at_ : Nat

/-- The log and the run's ledger, every answer a command gave, and what the invocation holds in
    memory: its memo, what its checks and measurements answered, and what its commands run with. -/
structure Life where
  log : List Logged
  run : RunLedger
  given : List Given := []
  cache : Cache := fun _ => none
  pending : List Answered := []
  measured : List BaselineCapturedPayload := []
  environment : Option ExecutionEnvironment
  driven : Bool := true
  /-- Where the log holds the latest choice a batch acted on. -/
  choice : Nat := 0
  /-- How long the log was when it did. -/
  forgotAt : Nat := 0
  /-- Every text the memo hashed to a key. -/
  hashed : List String := []

namespace Life

/-- Appends an entry, which the run's ledger folds when it is the run's own. -/
def append (s : Life) (entry : Entry) : Life :=
  { s with
    log := s.log ++ [⟨s.log.length + 1, entry⟩]
    run :=
      match entry with
      | .run event => s.run.apply event ⟨s.log.length + 1, 0, none⟩
      | _ => s.run }

/-- Whether an entry is one this invocation can write: what it says was answered is what its checks
    and its measurements answered, and no invocation begins in the middle of one. -/
def writes (s : Life) : Entry → Bool
  | .criteriaChecked results | .checkAnswered results => results.all (s.pending.contains ·)
  | .submitted probes => probes.flatten.all (s.pending.contains ·)
  | .run (.baselineCaptured p) => p.origin ≠ .measured || s.measured.contains p
  | .run (.created _) | .run (.resumed _) => false
  | .run _ | .chosen _ | .other => true

end Life

inductive Act where
  /-- A check that read `tree` asks what a command answers on the checkout it finds, which another
      command of the check may have written since; `exitCode` is what it would answer now. -/
  | ask (cmd : String) (tree : Tree) (found : Checkout) (exitCode : Int)
  /-- The suite is measured on a tree. -/
  | measure (cmd : String) (tree : Tree) (found : Checkout) (exitCode : Int) (hash : ContentHash)
  | record (entry : Entry)
  /-- A batch starts, acting on the choices its nodes' failures hold, by where the log has them. -/
  | batch (choices : List Nat)
  | crash
  | wake (p : RunResumedPayload)

/-- Whether the log holds a choice at `seq`. -/
def holdsChoice (log : List Logged) (seq : Nat) : Bool :=
  log.any fun event => event.seq = seq && match event.entry with
    | .chosen _ => true
    | _ => false

section
variable (sha256Hex : String → ContentHash) (configHash : ContentHash)

/-- The result of a criterion on a tree, as its check records it. -/
def answered (cmd : String) (tree : Tree) (exitCode : Int) (reused : Bool) : Answered :=
  ⟨cmd, exitCode, reused, some tree.content, tree.head.filter fun _ => asksGit cmd⟩

/-- An answer a command gives as it runs. -/
def gives (s : Life) (cmd : String) (tree : Tree) (found : Checkout) (exitCode : Int) : Given :=
  ⟨cmd, found, headFor cmd tree, exitCode, s.environment, s.log.length⟩

def step (s : Life) : Act → Option Life
  | .ask cmd tree found exitCode =>
    if s.driven && tree.plain then
      match s.cache (key sha256Hex configHash cmd tree) with
      | some known =>
        some { s with
          pending := s.pending ++ [answered cmd tree known true]
          hashed := s.hashed ++ [keyText configHash cmd tree.content (headFor cmd tree)] }
      | none =>
        some { s with
          given := s.given ++ [gives s cmd tree found exitCode]
          cache := put s.cache (key sha256Hex configHash cmd tree) exitCode
          pending := s.pending ++ [answered cmd tree exitCode false]
          hashed := s.hashed ++ [keyText configHash cmd tree.content (headFor cmd tree)] }
    else none
  | .measure cmd tree found exitCode hash =>
    if s.driven && tree.plain then
      some { s with
        given := s.given ++ [gives s cmd tree found exitCode]
        -- a red measurement holds no task to anything
        cache := if exitCode = 0 then passedOn sha256Hex configHash s.cache cmd tree
          else s.cache
        measured := s.measured ++
          [⟨cmd, ⟨exitCode, ""⟩, hash, .measured, some tree.content, none⟩]
        hashed := s.hashed ++ [keyText configHash cmd tree.content (headFor cmd tree)] }
    else none
  | .record entry => if s.writes entry then some (s.append entry) else none
  | .batch choices =>
    if s.driven && choices.all (holdsChoice s.log) then
      -- the batch before this one is over, and its checks with it
      if choices.isEmpty then some { s with pending := [] }
      else some { s with
        pending := []
        cache := forgetFailures s.cache
        choice := choices.foldl max s.choice
        forgotAt := s.log.length }
    else none
  | .crash =>
    some { s with cache := fun _ => none, pending := [], measured := [], driven := false }
  | .wake p =>
    if s.driven then none
    else
      let woken := s.append (.run (.resumed p))
      some { woken with
        cache := seed sha256Hex configHash (fun _ => none)
          (answers woken.log woken.run)
        environment := p.environment
        driven := true }

/-- A run just born, and driven by the invocation that bore it. -/
def born (p : RunCreatedPayload) : Life where
  log := [⟨1, .run (.created p)⟩]
  run := ({} : RunLedger).apply (.created p) ⟨1, 0, none⟩
  environment := p.environment

/-! ## What a reused answer is -/

/-- The wake takes back no red the latest batch let go of: whatever red its environment's log
    recorded before that batch, a later event of it answered the same key again. -/
def TakesNothingBack (s : Life) : Act → Prop
  | .wake p => ∀ now ∈ p.environment, ∀ event ∈ s.log, event.seq ≤ s.forgotAt →
      s.run.environmentAt event.seq = some now → ∀ r ∈ ofEvent event.entry,
      r.exitCode ≠ 0 → ∃ later ∈ s.log, event.seq < later.seq ∧
        s.run.environmentAt later.seq = some now ∧ ∃ r' ∈ ofEvent later.entry,
          key sha256Hex configHash r'.cmd r'.tree = key sha256Hex configHash r.cmd r.tree
  | _ => True

instance (s : Life) : (act : Act) → Decidable (TakesNothingBack sha256Hex configHash s act)
  | .wake p => inferInstanceAs (Decidable (∀ now ∈ p.environment, _))
  | .ask .. | .measure .. | .record _ | .batch _ | .crash => .isTrue trivial

end

section
-- which commands run git, as only running them tells
variable (runsGit : String → Bool)

/-- A command finds the checkout as its check read it: it holds the same, and a command that runs git
    is one `asksGit` says so of, and stands on the commit that was read. -/
def AsRead (cmd : String) (tree : Tree) (found : Checkout) : Prop :=
  found.content = tree.content ∧
    (runsGit cmd = true → asksGit cmd = true ∧ tree.head = some found.commit)

instance (cmd : String) (tree : Tree) (found : Checkout) : Decidable (AsRead runsGit cmd tree found) :=
  inferInstanceAs (Decidable (_ ∧ _))

/-- Every command finds the checkout as read, and no wake takes back what a batch let go of. -/
def Meets (sha256Hex : String → ContentHash) (configHash : ContentHash) (s : Life) (act : Act) :
    Prop :=
  match act with
  | .ask cmd tree found _ | .measure cmd tree found _ _ => AsRead runsGit cmd tree found
  | act => TakesNothingBack sha256Hex configHash s act

instance (sha256Hex : String → ContentHash) (configHash : ContentHash) (s : Life) :
    (act : Act) → Decidable (Meets runsGit sha256Hex configHash s act)
  | .ask .. | .measure .. => inferInstanceAs (Decidable (AsRead ..))
  | .wake p => inferInstanceAs (Decidable (TakesNothingBack sha256Hex configHash s (.wake p)))
  | .record _ | .batch _ | .crash => .isTrue trivial

/-- What `given` says is that `cmd` answered `exitCode` on what was found, in the environment that
    runs now, and after the latest choice a batch acted on if it is red. -/
def Given.Supports (given : Given) (s : Life) (cmd : String) (found : Checkout) (exitCode : Int) :
    Prop :=
  given.cmd = cmd ∧ given.found.content = found.content ∧
    (runsGit cmd = true → given.found.commit = found.commit) ∧ given.exitCode = exitCode ∧
    given.environment = s.environment ∧ (exitCode ≠ 0 → s.choice ≤ given.at_)

instance (given : Given) (s : Life) (cmd : String) (found : Checkout) (exitCode : Int) :
    Decidable (given.Supports runsGit s cmd found exitCode) := inferInstanceAs (Decidable (_ ∧ _))

/-- A reused answer of `cmd` on what was found is one the command gave, and still speaks. -/
def Speaks (s : Life) (cmd : String) (found : Checkout) (exitCode : Int) : Prop :=
  Unanswered.of exitCode = none ∧ ∃ given ∈ s.given, given.Supports runsGit s cmd found exitCode

instance (s : Life) (cmd : String) (found : Checkout) (exitCode : Int) :
    Decidable (Speaks runsGit s cmd found exitCode) := inferInstanceAs (Decidable (_ ∧ _))

end

/-! ## What holds of every run -/

/-- What `given` says is that `cmd` answered `exitCode` on `tree`, in this environment. -/
structure Backs (given : Given) (cmd : String) (tree : Tree) (exitCode : Int)
    (environment : Option ExecutionEnvironment) : Prop where
  command : given.cmd = cmd
  content : given.found.content = tree.content
  head : given.head = headFor cmd tree
  exit : given.exitCode = exitCode
  ranWith : given.environment = environment

/-- An answer some command gave: in this environment and, if it is red and `late`, after the latest
    batch that let go of the reds. -/
def Observed (given : List Given) (forgotAt : Nat) (r : Recorded)
    (environment : Option ExecutionEnvironment) (late : Prop) : Prop :=
  r.tree.plain = true ∧ ∃ g ∈ given, Backs g r.cmd r.tree r.exitCode environment ∧
    (r.exitCode ≠ 0 → late → forgotAt ≤ g.at_)

structure Kept (runsGit : String → Bool) (sha256Hex : String → ContentHash)
    (configHash : ContentHash) (s : Life) : Prop where
  sorted : s.log.Pairwise fun earlier later => earlier.seq < later.seq
  bounded : ∀ event ∈ s.log, event.seq ≤ s.log.length
  began : ∀ invocation ∈ s.run.invocations, invocation.1 ≤ s.log.length
  now : s.run.environmentNow = s.environment
  forgot : s.choice ≤ s.forgotAt ∧ s.forgotAt ≤ s.log.length
  idle : s.driven = false → s.pending = [] ∧ s.measured = []
  texts : ∀ g ∈ s.given, keyText configHash g.cmd g.found.content g.head ∈ s.hashed
  commits : ∀ g ∈ s.given, runsGit g.cmd = true → g.head = g.found.commit
  cache : ∀ k exitCode, s.cache k = some exitCode → Unanswered.of exitCode = none ∧ ∃ r : Recorded,
    key sha256Hex configHash r.cmd r.tree = k ∧ r.exitCode = exitCode ∧
    Observed s.given s.forgotAt r s.environment True
  pending : ∀ result ∈ s.pending, ∀ r, ofResult result = some r →
    Observed s.given s.forgotAt r s.environment True
  measured : ∀ p ∈ s.measured, ∀ r, measurement p = some r →
    Observed s.given s.forgotAt r s.environment True
  logged : ∀ event ∈ s.log, ∀ r ∈ ofEvent event.entry, ∀ environment,
    s.run.environmentAt event.seq = some environment →
    Observed s.given s.forgotAt r (some environment) (s.forgotAt < event.seq)

namespace Observed

variable {given given' : List Given} {forgotAt : Nat} {r : Recorded}
  {environment : Option ExecutionEnvironment} {late late' : Prop}

theorem mono (h : Observed given forgotAt r environment late)
    (hgiven : ∀ g ∈ given, g ∈ given') (hlate : late' → late) :
    Observed given' forgotAt r environment late' := by
  obtain ⟨hplain, g, hg, hbacks, hred⟩ := h
  exact ⟨hplain, g, hgiven g hg, hbacks, fun hne hl => hred hne (hlate hl)⟩

/-- Of a green answer nothing is asked about when it was given. -/
theorem green (h : Observed given forgotAt r environment late) (hgreen : r.exitCode = 0)
    (forgotAt' : Nat) (late' : Prop) : Observed given forgotAt' r environment late' := by
  obtain ⟨hplain, g, hg, hbacks, -⟩ := h
  exact ⟨hplain, g, hg, hbacks, fun hne => absurd hgreen hne⟩

end Observed

variable {runsGit : String → Bool} {sha256Hex : String → ContentHash} {configHash : ContentHash}
  {s : Life}

theorem kept_born (p : RunCreatedPayload) : Kept runsGit sha256Hex configHash (born p) where
  sorted := List.pairwise_singleton _ _
  bounded event hevent := by
    obtain rfl := List.mem_singleton.mp hevent
    exact Nat.le_refl 1
  began invocation hinvocation := by
    obtain rfl := List.mem_singleton.mp hinvocation
    exact Nat.le_refl 1
  now := rfl
  forgot := ⟨Nat.le_refl 0, Nat.zero_le _⟩
  idle h := by cases h
  texts g h := by cases h
  commits g h := by cases h
  cache k exitCode h := by cases h
  pending result h := by cases h
  measured p h := by cases h
  logged event hevent r hr := by
    obtain rfl := List.mem_singleton.mp hevent
    cases hr

/-! ### Answering -/

/-- What a command answers as it runs is observed. -/
theorem observed_gives (hforgot : s.forgotAt ≤ s.log.length) {cmd : String} {tree : Tree}
    {found : Checkout} {exitCode : Int} (hread : AsRead runsGit cmd tree found)
    (hplain : tree.plain = true) :
    Observed (s.given ++ [gives s cmd tree found exitCode]) s.forgotAt
      ⟨cmd, tree, exitCode⟩ s.environment True :=
  ⟨hplain, gives s cmd tree found exitCode, by simp, ⟨rfl, hread.1, rfl, rfl, rfl⟩,
    fun _ _ => hforgot⟩

/-- A check's result is read back as the answer it was. -/
theorem ofResult_answered {cmd : String} {tree : Tree} {exitCode : Int} {reused : Bool}
    {r : Recorded} (h : ofResult (answered cmd tree exitCode reused) = some r)
    {given : List Given} {forgotAt : Nat} {environment : Option ExecutionEnvironment} {late : Prop}
    (hobserved : Observed given forgotAt ⟨cmd, tree, exitCode⟩ environment late) :
    Observed given forgotAt r environment late := by
  obtain ⟨content, hcontent, rfl, -⟩ := ofResult_some h
  obtain rfl : tree.content = content := Option.some.inj hcontent
  obtain ⟨hplain, g, hg, hbacks, hred⟩ := hobserved
  refine ⟨?_, g, hg, ⟨hbacks.command, hbacks.content, hbacks.head.trans ?_, hbacks.exit,
    hbacks.ranWith⟩, hred⟩
  · obtain ⟨hcontent, hhead⟩ := Bool.and_eq_true_iff.mp hplain
    refine Bool.and_eq_true_iff.mpr ⟨hcontent, ?_⟩
    show (tree.head.filter fun _ => asksGit cmd).all _ = true
    cases htree : tree.head with
    | none => rfl
    | some head =>
      simp only [htree, Option.all_some] at hhead
      cases hgit : asksGit cmd with
      | false => simp
      | true => simpa using hhead
  · show headFor cmd tree =
      headFor cmd ⟨tree.content, tree.head.filter fun _ => asksGit cmd⟩
    cases hgit : asksGit cmd with
    | false => simp [headFor, hgit]
    | true =>
      cases htree : tree.head with
      | none => simp [headFor, htree]
      | some head => simp [headFor, hgit, htree, Option.filter_some]

/-- A key held after an answer is remembered is that answer's, or was held before. -/
theorem put_cases {cache : Cache} {k k' : ContentHash} {exitCode known : Int}
    (h : put cache k exitCode k' = some known) :
    cache k' = some known ∨ k' = k ∧ exitCode = known ∧ Unanswered.of known = none := by
  unfold put at h
  split at h
  · exact .inl h
  · next hanswered =>
    by_cases hk : k' = k
    · subst hk
      rw [Function.update_self] at h
      obtain rfl := Option.some.inj h
      exact .inr ⟨rfl, rfl, by simpa using hanswered⟩
    · rw [Function.update_of_ne hk] at h
      exact .inl h

/-- A command that runs on the tree its check read is one whose key was hashed. -/
theorem Kept.texts_gives (h : Kept runsGit sha256Hex configHash s) {cmd : String} {tree : Tree}
    {found : Checkout} (hread : AsRead runsGit cmd tree found) (exitCode : Int) :
    ∀ g ∈ s.given ++ [gives s cmd tree found exitCode],
      keyText configHash g.cmd g.found.content g.head ∈
        s.hashed ++ [keyText configHash cmd tree.content (headFor cmd tree)] := by
  intro g hg
  rcases List.mem_append.mp hg with hg | hg
  · exact List.mem_append_left _ (h.texts g hg)
  · obtain rfl := List.mem_singleton.mp hg
    exact List.mem_append_right _ (hread.1 ▸ List.mem_cons_self)

/-- The commit a command that runs git found is the one its answer is kept for. -/
theorem AsRead.headFor_eq {cmd : String} {tree : Tree} {found : Checkout}
    (h : AsRead runsGit cmd tree found) (hruns : runsGit cmd = true) :
    headFor cmd tree = found.commit := by
  obtain ⟨hasks, hhead⟩ := h.2 hruns
  rw [headFor, if_pos hasks, hhead]
  rfl

theorem Kept.commits_gives (h : Kept runsGit sha256Hex configHash s) {cmd : String} {tree : Tree}
    {found : Checkout} (hread : AsRead runsGit cmd tree found) (exitCode : Int) :
    ∀ g ∈ s.given ++ [gives s cmd tree found exitCode],
      runsGit g.cmd = true → g.head = g.found.commit := by
  intro g hg
  rcases List.mem_append.mp hg with hg | hg
  · exact h.commits g hg
  · obtain rfl := List.mem_singleton.mp hg
    exact hread.headFor_eq

/-- No two of these texts hash alike. -/
def NoCollision (sha256Hex : String → ContentHash) (texts : List String) : Prop :=
  ∀ text ∈ texts, ∀ text' ∈ texts, sha256Hex text = sha256Hex text' → text = text'

/-- What the memo answers is observed, on the tree it is asked about. -/
theorem Kept.reuses (h : Kept runsGit sha256Hex configHash s) {cmd : String} {tree : Tree}
    (hinj : NoCollision sha256Hex
      (s.hashed ++ [keyText configHash cmd tree.content (headFor cmd tree)]))
    (hplain : tree.plain = true) {known : Int}
    (hknown : s.cache (key sha256Hex configHash cmd tree) = some known) :
    Unanswered.of known = none ∧
      Observed s.given s.forgotAt ⟨cmd, tree, known⟩ s.environment True := by
  obtain ⟨hanswered, held, hkey, rfl, hheld, g, hg, hbacks, hred⟩ := h.cache _ _ hknown
  have htext : keyText configHash held.cmd held.tree.content (headFor held.cmd held.tree) ∈
      s.hashed := by
    have hmem := h.texts g hg
    rwa [hbacks.command, hbacks.content, hbacks.head] at hmem
  obtain ⟨hcmd, hcontent, hhead⟩ := keyText_inj hheld hplain
    (hinj _ (List.mem_append_left _ htext) _ (List.mem_append_right _ List.mem_cons_self) hkey)
  exact ⟨hanswered, hplain, g, hg, ⟨hbacks.command.trans hcmd, hbacks.content.trans hcontent,
    hbacks.head.trans hhead, hbacks.exit, hbacks.ranWith⟩, hred⟩

theorem Kept.asks (h : Kept runsGit sha256Hex configHash s) {cmd : String} {tree : Tree}
    {found : Checkout} {exitCode : Int} {s' : Life} (hread : AsRead runsGit cmd tree found)
    (hstep : step sha256Hex configHash s (.ask cmd tree found exitCode) = some s')
    (hinj : NoCollision sha256Hex s'.hashed) : Kept runsGit sha256Hex configHash s' := by
  simp only [step] at hstep
  split at hstep
  case isFalse => cases hstep
  case isTrue hguard =>
    obtain ⟨hdriven, hplain⟩ := Bool.and_eq_true_iff.mp hguard
    have hidle : ∀ {P : Prop}, s.driven = false → P := fun hnot => by
      rw [hdriven] at hnot
      cases hnot
    split at hstep
    · next known hknown =>
      obtain rfl := Option.some.inj hstep
      exact { h with
        idle := hidle
        texts := fun g hg => List.mem_append_left _ (h.texts g hg)
        pending := fun result hresult r hr => by
          rcases List.mem_append.mp hresult with hresult | hresult
          · exact h.pending result hresult r hr
          · obtain rfl := List.mem_singleton.mp hresult
            exact ofResult_answered hr (h.reuses hinj hplain hknown).2 }
    · obtain rfl := Option.some.inj hstep
      have hnew : Observed (s.given ++ [gives s cmd tree found exitCode]) s.forgotAt
          ⟨cmd, tree, exitCode⟩ s.environment True := observed_gives h.forgot.2 hread hplain
      have hgrows : ∀ g ∈ s.given, g ∈ s.given ++ [gives s cmd tree found exitCode] :=
        fun g hg => List.mem_append_left _ hg
      exact { h with
        idle := hidle
        texts := h.texts_gives hread exitCode
        commits := h.commits_gives hread exitCode
        cache := fun k known hknown => by
          rcases put_cases hknown with hheld | ⟨rfl, rfl, hanswer⟩
          · obtain ⟨hanswered, r, hkey, hexit, hobserved⟩ := h.cache k known hheld
            exact ⟨hanswered, r, hkey, hexit, hobserved.mono hgrows id⟩
          · exact ⟨hanswer, ⟨cmd, tree, exitCode⟩, rfl, rfl, hnew⟩
        pending := fun result hresult r hr => by
          rcases List.mem_append.mp hresult with hresult | hresult
          · exact (h.pending result hresult r hr).mono hgrows id
          · obtain rfl := List.mem_singleton.mp hresult
            exact ofResult_answered hr hnew
        measured := fun p hp r hr => (h.measured p hp r hr).mono hgrows id
        logged := fun event hevent r hr environment hwritten =>
          (h.logged event hevent r hr environment hwritten).mono hgrows id }

/-- A measurement's result is read back as the answer it was. -/
theorem measurement_answered {cmd : String} {tree : Tree} {exitCode : Int} {hash : ContentHash}
    {r : Recorded}
    (h : measurement ⟨cmd, ⟨exitCode, ""⟩, hash, .measured, some tree.content, none⟩ = some r)
    {given : List Given} {forgotAt : Nat} {environment : Option ExecutionEnvironment} {late : Prop}
    (hobserved : Observed given forgotAt ⟨cmd, tree, exitCode⟩ environment late) :
    Observed given forgotAt r environment late := by
  obtain ⟨content, hcontent, rfl, hgit, -, hexit⟩ := measurement_some h
  obtain rfl : tree.content = content := Option.some.inj hcontent
  obtain ⟨hplain, g, hg, hbacks, hred⟩ := hobserved
  refine ⟨?_, g, hg, ⟨hbacks.command, hbacks.content, hbacks.head.trans ?_,
    hbacks.exit.trans hexit, hbacks.ranWith⟩, fun hne => absurd rfl hne⟩
  · exact Bool.and_eq_true_iff.mpr ⟨(Bool.and_eq_true_iff.mp hplain).1, rfl⟩
  · show headFor cmd tree = headFor cmd ⟨tree.content, none⟩
    rw [headFor, headFor, if_neg (by simpa using hgit), if_neg (by simpa using hgit)]

theorem Kept.measures (h : Kept runsGit sha256Hex configHash s) {cmd : String} {tree : Tree}
    {found : Checkout} {exitCode : Int} {hash : ContentHash} {s' : Life}
    (hread : AsRead runsGit cmd tree found)
    (hstep : step sha256Hex configHash s (.measure cmd tree found exitCode hash) = some s') :
    Kept runsGit sha256Hex configHash s' := by
  simp only [step] at hstep
  split at hstep
  case isFalse => cases hstep
  case isTrue hguard =>
    obtain ⟨hdriven, hplain⟩ := Bool.and_eq_true_iff.mp hguard
    obtain rfl := Option.some.inj hstep
    have hnew : Observed (s.given ++ [gives s cmd tree found exitCode]) s.forgotAt
        ⟨cmd, tree, exitCode⟩ s.environment True := observed_gives h.forgot.2 hread hplain
    have hgrows : ∀ g ∈ s.given, g ∈ s.given ++ [gives s cmd tree found exitCode] :=
      fun g hg => List.mem_append_left _ hg
    exact { h with
      idle := fun hnot => by
        have hnone : s.driven = false := hnot
        rw [hdriven] at hnone
        cases hnone
      texts := h.texts_gives hread exitCode
      commits := h.commits_gives hread exitCode
      cache := fun k known hknown => by
        have hold : s.cache k = some known → Unanswered.of known = none ∧ ∃ r : Recorded,
            key sha256Hex configHash r.cmd r.tree = k ∧ r.exitCode = known ∧
            Observed (s.given ++ [gives s cmd tree found exitCode]) s.forgotAt r
              s.environment True := fun hheld => by
          obtain ⟨hanswered, r, hkey, hexit, hobserved⟩ := h.cache k known hheld
          exact ⟨hanswered, r, hkey, hexit, hobserved.mono hgrows id⟩
        by_cases hpassed : exitCode = 0
        · simp only [if_pos hpassed, passedOn] at hknown
          by_cases hk : k = key sha256Hex configHash cmd tree
          · subst hk
            rw [Function.update_self] at hknown
            obtain rfl := Option.some.inj hknown
            exact ⟨rfl, ⟨cmd, tree, exitCode⟩, rfl, hpassed, hnew⟩
          · rw [Function.update_of_ne hk] at hknown
            exact hold hknown
        · simp only [if_neg hpassed] at hknown
          exact hold hknown
      pending := fun result hresult r hr => (h.pending result hresult r hr).mono hgrows id
      measured := fun p hp r hr => by
        rcases List.mem_append.mp hp with hp | hp
        · exact (h.measured p hp r hr).mono hgrows id
        · obtain rfl := List.mem_singleton.mp hp
          exact measurement_answered hr hnew
      logged := fun event hevent r hr environment hwritten =>
        (h.logged event hevent r hr environment hwritten).mono hgrows id }

/-! ### Recording and forgetting -/

/-- An entry that begins no invocation, and holds answers this one gave. -/
theorem Kept.appends (h : Kept runsGit sha256Hex configHash s) {entry : Entry}
    (hsame : (s.append entry).run.invocations = s.run.invocations)
    (hentry : ∀ r ∈ ofEvent entry,
      Observed s.given s.forgotAt r s.environment True) :
    Kept runsGit sha256Hex configHash (s.append entry) where
  sorted := List.pairwise_append.mpr ⟨h.sorted, List.pairwise_singleton _ _,
    fun event hevent last hlast => by
      rw [List.mem_singleton.mp hlast]
      exact Nat.lt_succ_of_le (h.bounded event hevent)⟩
  bounded event hevent := by
    show event.seq ≤ (s.log ++ [_]).length
    rw [List.length_append, List.length_singleton]
    rcases List.mem_append.mp hevent with hevent | hevent
    · exact Nat.le_succ_of_le (h.bounded event hevent)
    · rw [List.mem_singleton.mp hevent]
  began invocation hinvocation := by
    show invocation.1 ≤ (s.log ++ [_]).length
    rw [hsame] at hinvocation
    rw [List.length_append]
    exact Nat.le_succ_of_le (h.began invocation hinvocation)
  now := (RunLedger.environmentNow_congr hsame).trans h.now
  forgot := by
    show s.choice ≤ s.forgotAt ∧ s.forgotAt ≤ (s.log ++ [_]).length
    rw [List.length_append]
    exact ⟨h.forgot.1, Nat.le_succ_of_le h.forgot.2⟩
  idle := h.idle
  texts := h.texts
  commits := h.commits
  cache := h.cache
  pending := h.pending
  measured := h.measured
  logged event hevent r hr environment hwritten := by
    rw [RunLedger.environmentAt_congr hsame] at hwritten
    rcases List.mem_append.mp hevent with hevent | hevent
    · exact h.logged event hevent r hr environment hwritten
    · obtain rfl := List.mem_singleton.mp hevent
      have hbegan : ∀ invocation ∈ s.run.invocations, invocation.1 ≤ s.log.length + 1 :=
        fun invocation hinvocation => Nat.le_succ_of_le (h.began invocation hinvocation)
      rw [RunLedger.environmentAt_last hbegan, h.now] at hwritten
      exact hwritten ▸ (hentry r hr).mono (fun _ hg => hg) fun _ => trivial

theorem Kept.records (h : Kept runsGit sha256Hex configHash s) {entry : Entry} {s' : Life}
    (hstep : step sha256Hex configHash s (.record entry) = some s') :
    Kept runsGit sha256Hex configHash s' := by
  simp only [step] at hstep
  split at hstep
  case isFalse => cases hstep
  case isTrue hwrites =>
    obtain rfl := Option.some.inj hstep
    have hresults : ∀ results : List Answered, results.all (s.pending.contains ·) = true →
        ∀ r ∈ results.filterMap (ofResult),
          Observed s.given s.forgotAt r s.environment True := fun results hall r hr => by
      obtain ⟨result, hresult, hread⟩ := List.mem_filterMap.mp hr
      have hpending := List.all_eq_true.mp hall result hresult
      exact h.pending result (by simpa using hpending) r hread
    cases entry with
    | criteriaChecked results => exact h.appends rfl (hresults results hwrites)
    | checkAnswered results => exact h.appends rfl (hresults results hwrites)
    | submitted probes => exact h.appends rfl (hresults probes.flatten hwrites)
    | chosen node => exact h.appends rfl (by intro r hr; cases hr)
    | other => exact h.appends rfl (by intro r hr; cases hr)
    | run event =>
      cases event with
      | created p => cases hwrites
      | resumed p => cases hwrites
      | baselineCaptured p =>
        refine h.appends rfl fun r hr => ?_
        have hread := Option.mem_toList.mp hr
        obtain ⟨-, -, -, -, horigin, -⟩ := measurement_some hread
        have hmeasured : p ∈ s.measured := by simpa [Life.writes, horigin] using hwrites
        exact h.measured p hmeasured r hread
      | _ => exact h.appends rfl (by intro r hr; cases hr)

theorem foldl_max_le {choices : List Nat} {choice bound : Nat} (h : choice ≤ bound)
    (hall : ∀ other ∈ choices, other ≤ bound) : choices.foldl max choice ≤ bound := by
  induction choices generalizing choice with
  | nil => exact h
  | cons first rest ih =>
    refine ih (max_le h (hall first List.mem_cons_self)) fun other hother => ?_
    exact hall other (List.mem_cons_of_mem _ hother)

/-- A batch that acts on a choice lets go of every red. -/
theorem Kept.batches (h : Kept runsGit sha256Hex configHash s) {choices : List Nat} {s' : Life}
    (hstep : step sha256Hex configHash s (.batch choices) = some s') :
    Kept runsGit sha256Hex configHash s' := by
  simp only [step] at hstep
  split at hstep
  case isFalse => cases hstep
  case isTrue hguard =>
    obtain ⟨hdriven, hall⟩ := Bool.and_eq_true_iff.mp hguard
    have hchoices := List.all_eq_true.mp hall
    have hidle : ∀ {P : Prop}, s.driven = false → P := fun hnot => by
      rw [hdriven] at hnot
      cases hnot
    split at hstep
    · obtain rfl := Option.some.inj hstep
      exact { h with
        idle := hidle
        pending := fun result hresult => by cases hresult }
    · obtain rfl := Option.some.inj hstep
      exact { h with
        idle := hidle
        forgot := by
          refine ⟨?_, Nat.le_refl _⟩
          have hold : s.choice ≤ s.log.length := Nat.le_trans h.forgot.1 h.forgot.2
          refine foldl_max_le hold fun choice hchoice => ?_
          obtain ⟨event, hevent, hheld⟩ := List.any_eq_true.mp (hchoices choice hchoice)
          have hseq := (Bool.and_eq_true_iff.mp hheld).1
          exact of_decide_eq_true hseq ▸ h.bounded event hevent
        cache := fun k known hknown => by
          obtain ⟨hheld, hgreen⟩ := Option.filter_eq_some_iff.mp hknown
          obtain ⟨hanswered, r, hkey, hexit, hobserved⟩ := h.cache k known hheld
          have hpassed : r.exitCode = 0 := hexit.trans (by simpa using hgreen)
          exact ⟨hanswered, r, hkey, hexit, hobserved.green hpassed _ _⟩
        pending := fun result hresult => by cases hresult
        measured := fun p hp r hr => by
          have hpassed : r.exitCode = 0 := by
            obtain ⟨content, -, rfl, -⟩ := measurement_some hr
            rfl
          exact (h.measured p hp r hr).green hpassed _ _
        logged := fun event hevent r hr environment hwritten => by
          obtain ⟨hplain, g, hg, hbacks, -⟩ := h.logged event hevent r hr environment hwritten
          exact ⟨hplain, g, hg, hbacks, fun _ hlate =>
            absurd hlate (Nat.not_lt.mpr (h.bounded event hevent))⟩ }

/-! ### Waking -/

/-- A wake that takes back nothing a batch let go of takes in answers that still speak. -/
theorem Kept.wakes (h : Kept runsGit sha256Hex configHash s) {p : RunResumedPayload}
    (hmeets : TakesNothingBack sha256Hex configHash s (.wake p)) {s' : Life}
    (hstep : step sha256Hex configHash s (.wake p) = some s') :
    Kept runsGit sha256Hex configHash s' := by
  simp only [step] at hstep
  split at hstep
  case isTrue => cases hstep
  case isFalse hundriven =>
  obtain rfl := Option.some.inj hstep
  obtain ⟨hpending, hmeasured⟩ := h.idle (by simpa using hundriven)
  have hinvocations : (s.append (.run (.resumed p))).run.invocations =
      s.run.invocations ++ [(s.log.length + 1, p.environment)] :=
    RunLedger.resumed_invocations _ _ _
  have hbefore : ∀ event ∈ s.log, (s.append (.run (.resumed p))).run.environmentAt event.seq =
      s.run.environmentAt event.seq := fun event hevent =>
    RunLedger.environmentAt_before hinvocations (Nat.lt_succ_of_le (h.bounded event hevent))
  have hlogged : ∀ event ∈ (s.append (.run (.resumed p))).log, ∀ r ∈ ofEvent event.entry,
      event ∈ s.log := fun event hevent r hr => by
    rcases List.mem_append.mp hevent with hevent | hevent
    · exact hevent
    · obtain rfl := List.mem_singleton.mp hevent
      cases hr
  have hsorted : (s.append (.run (.resumed p))).log.Pairwise
      fun earlier later => earlier.seq < later.seq :=
    List.pairwise_append.mpr ⟨h.sorted, List.pairwise_singleton _ _,
      fun event hevent last hlast => by
        rw [List.mem_singleton.mp hlast]
        exact Nat.lt_succ_of_le (h.bounded event hevent)⟩
  exact {
    sorted := hsorted
    bounded := fun event hevent => by
      show event.seq ≤ (s.log ++ [_]).length
      rw [List.length_append, List.length_singleton]
      rcases List.mem_append.mp hevent with hevent | hevent
      · exact Nat.le_succ_of_le (h.bounded event hevent)
      · rw [List.mem_singleton.mp hevent]
    began := fun invocation hinvocation => by
      show invocation.1 ≤ (s.log ++ [_]).length
      rw [List.length_append, List.length_singleton]
      have hmem : invocation ∈ s.run.invocations ++ [(s.log.length + 1, p.environment)] :=
        hinvocations ▸ hinvocation
      rcases List.mem_append.mp hmem with hmem | hmem
      · exact Nat.le_succ_of_le (h.began invocation hmem)
      · rw [List.mem_singleton.mp hmem]
    now := RunLedger.environmentNow_append hinvocations
    forgot := by
      show s.choice ≤ s.forgotAt ∧ s.forgotAt ≤ (s.log ++ [_]).length
      rw [List.length_append]
      exact ⟨h.forgot.1, Nat.le_succ_of_le h.forgot.2⟩
    cache := fun k known hknown => by
      obtain ⟨now, hnow, event, hevent, hwritten, ⟨r, hr, hkey, hexit⟩, hlatest⟩ :=
        seed_answers hsorted hknown
      have henvironment : p.environment = some now :=
        (RunLedger.environmentNow_append hinvocations).symm.trans hnow
      have hold := hlogged event hevent r hr
      rw [hbefore event hold] at hwritten
      obtain ⟨hplain, g, hg, hbacks, hred⟩ := h.logged event hold r hr now hwritten
      refine ⟨hexit ▸ ofEvent_answered hr, r, hkey, hexit, hplain, g, hg, henvironment ▸ hbacks,
        fun hne _ => hred hne ?_⟩
      -- a red from before the latest batch is answered again by a later event, which decides the key
      by_contra hearly
      obtain ⟨later, hlater, hseq, hlaterAt, r', hr', hsame⟩ :=
        hmeets now henvironment event hold (Nat.not_lt.mp hearly) hwritten r hr hne
      exact hlatest later (List.mem_append_left _ hlater) hseq
        ((hbefore later hlater).trans hlaterAt) r' hr' (hsame.trans hkey)
    idle := fun hnot => by cases hnot
    texts := h.texts
    commits := h.commits
    pending := fun result hresult => by
      have hnone : result ∈ s.pending := hresult
      rw [hpending] at hnone
      cases hnone
    measured := fun q hq => by
      have hnone : q ∈ s.measured := hq
      rw [hmeasured] at hnone
      cases hnone
    logged := fun event hevent r hr environment hwritten => by
      have hold := hlogged event hevent r hr
      rw [hbefore event hold] at hwritten
      exact h.logged event hold r hr environment hwritten }

/-! ## Main result -/

theorem Kept.crashes (h : Kept runsGit sha256Hex configHash s) {s' : Life}
    (hstep : step sha256Hex configHash s .crash = some s') :
    Kept runsGit sha256Hex configHash s' := by
  obtain rfl := Option.some.inj hstep
  exact { h with
    idle := fun _ => ⟨rfl, rfl⟩
    cache := fun k known hknown => by cases hknown
    pending := fun result hresult => by cases hresult
    measured := fun p hp => by cases hp }

/-- What the memo hashed stays hashed. -/
theorem hashed_mono {act : Act} {s' : Life}
    (hstep : step sha256Hex configHash s act = some s') :
    ∀ text ∈ s.hashed, text ∈ s'.hashed := by
  intro text htext
  cases act with
  | ask cmd tree found exitCode =>
    simp only [step] at hstep
    split at hstep
    · split at hstep
      · obtain rfl := Option.some.inj hstep
        exact List.mem_append_left _ htext
      · obtain rfl := Option.some.inj hstep
        exact List.mem_append_left _ htext
    · cases hstep
  | measure cmd tree found exitCode hash =>
    simp only [step] at hstep
    split at hstep
    · obtain rfl := Option.some.inj hstep
      exact List.mem_append_left _ htext
    · cases hstep
  | record entry =>
    simp only [step] at hstep
    split at hstep
    · obtain rfl := Option.some.inj hstep
      exact htext
    · cases hstep
  | batch choices =>
    simp only [step] at hstep
    split at hstep
    · split at hstep <;> (obtain rfl := Option.some.inj hstep; exact htext)
    · cases hstep
  | crash =>
    obtain rfl := Option.some.inj hstep
    exact htext
  | wake p =>
    simp only [step] at hstep
    split at hstep
    · cases hstep
    · obtain rfl := Option.some.inj hstep
      exact htext

/-- **One act** that meets the conditions, while nothing it hashed collides. -/
theorem kept_step (h : Kept runsGit sha256Hex configHash s) {act : Act}
    (hmeets : Meets runsGit sha256Hex configHash s act) {s' : Life}
    (hstep : step sha256Hex configHash s act = some s')
    (hinj : NoCollision sha256Hex s'.hashed) : Kept runsGit sha256Hex configHash s' := by
  cases act with
  | ask cmd tree found exitCode => exact h.asks hmeets hstep hinj
  | measure cmd tree found exitCode hash => exact h.measures hmeets hstep
  | record entry => exact h.records hstep
  | batch choices => exact h.batches hstep
  | crash => exact h.crashes hstep
  | wake p => exact h.wakes hmeets hstep

theorem kept_reached {p : RunCreatedPayload}
    (h : Reached (step sha256Hex configHash) (Meets runsGit sha256Hex configHash) (born p) s)
    (hinj : NoCollision sha256Hex s.hashed) : Kept runsGit sha256Hex configHash s := by
  refine h.invariant (P := fun s => NoCollision sha256Hex s.hashed →
    Kept runsGit sha256Hex configHash s) (fun _ => kept_born p) ?_ hinj
  intro before act after hkept hmeets hstep hafter
  have hmono := hashed_mono hstep
  have hbefore : NoCollision sha256Hex before.hashed := fun text htext text' htext' =>
    hafter text (hmono text htext) text' (hmono text' htext')
  exact kept_step (hkept hbefore) hmeets hstep hafter

/-- **A reused answer is one that was observed and still speaks**: in every run whose commands find
    the checkout as read, and no wake of which takes back a red recorded before the latest batch that
    let go of them, whatever a check answers on such a checkout without running its command, while no
    two texts the memo hashed collide. -/
theorem reused_speaks (runsGit : String → Bool) (sha256Hex : String → ContentHash)
    (configHash : ContentHash) (p : RunCreatedPayload) (s s' : Life)
    (h : Reached (step sha256Hex configHash) (Meets runsGit sha256Hex configHash) (born p) s)
    (hinj : NoCollision sha256Hex s'.hashed) (cmd : String) (tree : Tree) (found : Checkout)
    (now known : Int) (hread : AsRead runsGit cmd tree found)
    (hask : step sha256Hex configHash s (.ask cmd tree found now) = some s')
    (hreused : s'.pending = s.pending ++ [answered cmd tree known true]) :
    Speaks runsGit s cmd found known := by
  have hmono := hashed_mono hask
  have hkept : Kept runsGit sha256Hex configHash s :=
    kept_reached h fun text htext text' htext' =>
      hinj text (hmono text htext) text' (hmono text' htext')
  simp only [step] at hask
  split at hask
  case isFalse => cases hask
  case isTrue hguard =>
    obtain ⟨-, hplain⟩ := Bool.and_eq_true_iff.mp hguard
    split at hask
    · next code hcode =>
      obtain rfl := Option.some.inj hask
      obtain ⟨hanswered, -, g, hg, hbacks, hred⟩ := hkept.reuses hinj hplain hcode
      obtain rfl : code = known := by simpa [answered] using hreused
      have hcommit : runsGit cmd = true → g.found.commit = found.commit := fun hruns => by
        rw [← hkept.commits g hg (hbacks.command ▸ hruns), hbacks.head, hread.headFor_eq hruns]
      exact ⟨hanswered, g, hg, hbacks.command, hbacks.content.trans hread.1.symm, hcommit,
        hbacks.exit, hbacks.ranWith, fun hne => Nat.le_trans hkept.forgot.1 (hred hne trivial)⟩
    · obtain rfl := Option.some.inj hask
      simp [answered] at hreused

/-! ## Runs -/

/-- A run whose commands run with `/bin`. -/
def bornWith : RunCreatedPayload := { manifestHash := "m", environment := some ⟨"sh", ["/bin"]⟩ }

def wokenWith : RunResumedPayload := { environment := some ⟨"sh", ["/bin"]⟩ }

/-- A tree as a check with no command that asks git reads it, and the checkout it read. -/
def someTree : Tree := ⟨"t", none⟩

def someCheckout : Checkout := ⟨"t", "base"⟩

theorem someTree_plain : someTree.plain = true := by decide +kernel

/-- What a red check of one command records. -/
def redCheck : Answered := ⟨"test", 1, false, some "t", none⟩

/-- A red is recorded, a person chooses to run the node again, the batch lets go of the red, the
    command answers red once more, and the process dies and wakes. -/
def askedAgain : List Act :=
  [.ask "test" someTree someCheckout 1, .record (.criteriaChecked [redCheck]),
   .record (.chosen "n"), .batch [3], .ask "test" someTree someCheckout 1,
   .record (.criteriaChecked [redCheck]), .crash, .wake wokenWith]

/-- A check answers from the memo where it holds what it is asked. -/
theorem ask_known {cmd : String} {tree : Tree} {known : Int} (hdriven : s.driven = true)
    (hplain : tree.plain = true) (hcache : s.cache (key sha256Hex configHash cmd tree) = some known)
    (found : Checkout) (now : Int) :
    step sha256Hex configHash s (.ask cmd tree found now) = some { s with
      pending := s.pending ++ [answered cmd tree known true]
      hashed := s.hashed ++ [keyText configHash cmd tree.content (headFor cmd tree)] } := by
  simp only [step, hdriven, hplain, hcache, Bool.and_self, if_true]

theorem reused_speaks_askedAgain : ∃ s, s.choice = 3 ∧
    Speaks (fun _ => false) s "test" someCheckout 1 := by
  obtain ⟨s, hreached, hs⟩ := exists_reached (step id "c") (Meets (fun _ => false) id "c")
    (born bornWith) askedAgain (fun s => s.driven && s.choice = 3 &&
      s.cache (key id "c" "test" someTree) = some 1) (by decide +kernel)
  simp only [Bool.and_eq_true, decide_eq_true_eq] at hs
  obtain ⟨⟨hdriven, hchoice⟩, hcache⟩ := hs
  exact ⟨s, hchoice, reused_speaks (fun _ => false) id "c" bornWith s _ hreached
    (fun _ _ _ _ heq => heq) "test" someTree someCheckout 0 1 (by decide)
    (ask_known hdriven someTree_plain hcache someCheckout 0) rfl⟩

/-! ## Checks misled -/

/-- Some run brings a check of `cmd` on the checkout it finds to an answer, given without running it,
    that does not speak. -/
def Misled (runsGit : String → Bool) (cmd : String) (tree : Tree) (found : Checkout) (known : Int) :
    Prop :=
  ∃ s s', Reached (step id "c") Free (born bornWith) s ∧
    step id "c" s (.ask cmd tree found 0) = some s' ∧
    s'.pending = s.pending ++ [answered cmd tree known true] ∧ ¬ Speaks runsGit s cmd found known

theorem misled_of_run (acts : List Act) {cmd : String} {tree : Tree} {found : Checkout}
    {known : Int} (hplain : tree.plain = true)
    (h : (run (step id "c") Free (born bornWith) acts).any (fun s => s.driven &&
      s.cache (key id "c" cmd tree) = some known && !decide (Speaks runsGit s cmd found known)) =
      true) : Misled runsGit cmd tree found known := by
  obtain ⟨s, hreached, hs⟩ := exists_reached (step id "c") Free (born bornWith) acts _ h
  simp only [Bool.and_eq_true, decide_eq_true_eq, Bool.not_eq_true', decide_eq_false_iff_not] at hs
  obtain ⟨⟨hdriven, hcache⟩, hsilent⟩ := hs
  exact ⟨s, _, hreached, ask_known hdriven hplain hcache found 0, rfl, hsilent⟩

/-- The process dies before the command is asked again, and the wake takes the old red back. -/
def takenBack : List Act :=
  [.ask "test" someTree someCheckout 1, .record (.criteriaChecked [redCheck]),
   .record (.chosen "n"), .batch [3], .crash, .wake wokenWith]

/-- A command of the check writes a file before the next one runs. -/
def written : List Act := [.ask "test" someTree ⟨"written", "base"⟩ 0]

/-- A command that asks git behind a keyword. -/
def behindKeyword : String := "if git diff --quiet main; then make; fi"

/-- It answers on a commit, and what is committed after it leaves the files as they were. -/
def committed : List Act := [.ask behindKeyword someTree someCheckout 0]

/-- **Three ways a check is misled**: by a red given before the choice a batch acted on, by an answer
    given on files another command had written, and by one that git gave on another commit. -/
theorem not_reused_speaks :
    Misled (fun _ => false) "test" someTree someCheckout 1 ∧
    Misled (fun _ => false) "test" someTree someCheckout 0 ∧
    Misled (· = behindKeyword) behindKeyword someTree ⟨"t", "next"⟩ 0 :=
  ⟨misled_of_run takenBack someTree_plain (by decide +kernel),
    misled_of_run written someTree_plain (by decide +kernel),
    misled_of_run committed someTree_plain (by decide +kernel)⟩

end Yunta.Criteria
