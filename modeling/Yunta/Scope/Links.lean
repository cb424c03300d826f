/-
  The links a run's base commit holds where an agent CLI loads its configuration or instructions.

  A CLI reads through a link, so what a link resolves to inside the checkout is protected for the
  reason the CLI loads the link's path.

  1. **Resolution** — `resolve` walks a link's text from the link's directory, each link on the way
     followed, forty of them at most.  A link whose text is absolute, that climbs out of the
     checkout, that passes too many links or that names the checkout itself resolves to nothing.

  2. **Carrying** — `carried` is what a link adds to a set: its target, where a glob of what a CLI
     loads holds the link's path; and the place of a whole tree beneath its target, where the link
     stands at or above that tree.  The way to either is held as itself.

  3. **Growth** — `grown` adds what each link carries, round by round, until a round adds nothing.
-/
import Mathlib.Data.List.Infix
import Yunta.Lib.Saturate
import Yunta.Scope.Protected
import Yunta.Scope.Spelling

set_option linter.unusedVariables false

namespace Yunta

/-! ## The tree of a commit -/

/-- A commit's links, each with the text it points by, and its files.  No entry stands below a
    link. -/
structure CommitTree where
  links : List (Path × String)
  files : List Path
  once : (links.map (·.1)).Nodup
  paths : ∀ path ∈ links.map (·.1) ++ files, IsPath path
  below : ∀ link ∈ links, ∀ path ∈ links.map (·.1) ++ files, link.1 <+: path → path = link.1

/-- The text of the link at a path. -/
def CommitTree.linkAt (commit : CommitTree) (path : Path) : Option String :=
  (commit.links.find? fun link => link.1 = path).map (·.2)

/-! ## Resolution -/

/-- A link at a path an agent CLI loads, and what it resolves to. -/
structure LoadedLink where
  path : Path
  target : Path
  /-- The paths the resolution walks through before the target. -/
  passed : List Path
  /-- The commit holds no file at the target. -/
  tree : Bool
  deriving DecidableEq

/-- How many links one path may pass through: the bound Linux holds a path lookup to. -/
def HOPS : Nat := 40

/-- The names a link's text walks through; `none` for an absolute or an empty text. -/
def namesOf (text : String) : Option (List String) :=
  let names := ((text.toList.splitOn '/').map String.ofList).filter (· ≠ "")
  if text.toList.head? ≠ some '/' ∧ names ≠ [] then some names else none

/-- Walks `ahead` from `at_`, with the paths passed so far.  A link's text stands in for its name,
    and `jump` walks on from there. -/
def steps (links : Path → Option String)
    (jump : Path → List String → List Path → Option (Path × List Path)) :
    Path → List String → List Path → Option (Path × List Path)
  | at_, [], passed => some (at_, passed)
  | at_, name :: ahead, passed =>
    if name = "." then steps links jump at_ ahead passed
    else if name = ".." then
      if at_ = [] then none else steps links jump at_.dropLast ahead passed
    else
      match links (at_ ++ [name]) with
      | some next =>
        (namesOf next).bind fun names => jump at_ (names ++ ahead) (passed ++ [at_ ++ [name]])
      | none =>
        steps links jump (at_ ++ [name]) ahead
          (if ahead = [] then passed else passed ++ [at_ ++ [name]])

/-- The loop of `resolve`, with the links it may still follow. -/
def walk (links : Path → Option String) :
    Nat → Path → List String → List Path → Option (Path × List Path)
  | 0 => steps links fun _ _ _ => none
  | left + 1 => steps links (walk links left)

/-- The checkout path `text` names from the directory of the link at `link`, and the paths walked on
    the way, each once. -/
def resolve (links : Path → Option String) (link : Path) (text : String) :
    Option (Path × List Path) :=
  (namesOf text).bind fun ahead =>
    (walk links HOPS link.dropLast ahead []).bind fun (target, passed) =>
      if target = [] then none
      else some (target, Saturate.addAll [] (passed.filter (· ≠ target)))

/-- Every link of a commit's tree that resolves inside the checkout. -/
def resolved (commit : CommitTree) : List LoadedLink :=
  commit.links.filterMap fun (path, text) =>
    (resolve commit.linkAt path text).map fun (target, passed) =>
      ⟨path, target, passed, !commit.files.contains target⟩

/-! ## Carrying -/

/-- The paths from `target` down to `target/below`, both included. -/
def wayDown (target below : Path) : List Path := below.inits.map (target ++ ·)

/-- `Path::strip_prefix`. -/
def stripPath (path above : Path) : Option Path :=
  if above.isPrefixOf path then some (path.drop above.length) else none

/-- Whether an entry is of what a CLI loads. -/
def Entry.loads (entry : Entry) : Bool := entry.reason.followsLinks && !entry.onTheWay

namespace Protected

variable {builds : List ScopeGlob → Bool} (selects : ScopeGlob → String → Bool)

/-- What a link carries where what a CLI loads holds its path: its target, every path under it too
    when it is a tree, and the way to it. -/
def carriedHolding (self : Protected builds) (link : LoadedLink) : List Entry :=
  match (((self.entries.filter (·.loads)).filter fun entry =>
      selects entry.glob (joined link.path)).map (·.reason)).argmin Protection.rank with
  | some reason =>
    ⟨reason, if link.tree then under (joined link.target) else exact (joined link.target), false⟩ ::
      (link.passed ++ if link.tree then [link.target] else []).map (Entry.passed reason)
  | none => []

/-- What a link carries for one entry: the place of its tree beneath the link's target, and the way
    down to it, where the link stands at or above that tree. -/
def carriedAbove (link : LoadedLink) (entry : Entry) : List Entry :=
  match (wholeTree entry.glob).bind fun tree => stripPath (componentsOf tree) link.path with
  | some below =>
    ⟨entry.reason, under (joined (link.target ++ below)), false⟩ ::
      (link.passed ++ wayDown link.target below).map (Entry.passed entry.reason)
  | none => []

/-- What `link` carries. -/
def carried (self : Protected builds) (link : LoadedLink) : List Entry :=
  self.carriedHolding selects link ++
    (self.entries.filter (·.loads)).flatMap (carriedAbove link)

/-- The entries of a set, and what each link adds to them in one round. -/
def carriedRound (self : Protected builds) (links : List LoadedLink) : List Entry :=
  links.foldl (fun entries link => Saturate.addAll entries (self.carried selects link)) self.entries

/-! ## Growth -/

/-- Where growing a set stands: more rounds to go, a set that does not build, or the grown set. -/
inductive Growth (builds : List ScopeGlob → Bool) where
  | unfinished
  | unbuilt
  | built (set : Protected builds)

/-- The set grown round by round until a round adds nothing, in at most `rounds` rounds.  What a
    person granted the set stays lifted. -/
def grown (links : List LoadedLink) : Nat → Protected builds → Growth builds
  | 0, _ => .unfinished
  | rounds + 1, set =>
    if (set.carriedRound selects links).length = set.entries.length then .built set
    else
      match ofEntries builds (set.carriedRound selects links) with
      | some next => grown links rounds (next.lifting set.granted)
      | none => .unbuilt

/-- `Protected::of_run`: the set a run reads. -/
def ofRun (builds : List ScopeGlob → Bool) (project approved : List ScopeGlob)
    (links : List LoadedLink) (rounds : Nat) : Growth builds :=
  match Protected.new builds project approved with
  | some set => set.grown selects links rounds
  | none => .unbuilt

end Protected

end Yunta
