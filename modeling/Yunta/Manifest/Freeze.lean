/-
  The freeze: every input a run's nodes interpret, read from the tree the run is born in and kept by
  content.

  1. **What is interpreted** — `agentsOf`, `skillsOf`, `executorsOf`, `layersOf` and `usesOf` say which
     names a node's work will read, and `Reach.visit` gathers them over every node of a workflow.

  2. **The walk** — `walk` reads each child workflow a node names through `use:` once, and visits it in
     turn, until none is left to read.

  3. **The freeze** — `freeze` reads what the names gathered stand for, and holds the bytes under the
     hash they are named by; the knowledge of every layer goes into one map (`oneMap`).

  4. **Main results** — `freeze_whole`: what a freeze holds is exactly what the nodes reached from the
     workflow interpret, children of children included, and each hash it names names bytes it holds;
     of a layer's files of one key it holds the last (`FrozenLayers`).  `freeze_refuses`: with a finite
     tree a freeze ends, and is refused exactly by a reading those nodes ask for.

  What the walk has gathered is what the workflows it has seen interpret (`Gathered`), and each child
  read takes its own names off the pushes still to come (`Visit.pushes_taken`).
-/
import Mathlib.Data.Finset.Sort
import Mathlib.Data.String.Basic
import Yunta.Events.Basics
import Yunta.Lib.OrdMap
import Yunta.Lib.Visit

set_option linter.unusedVariables false

namespace Yunta.Freeze

open Relation (ReflTransGen)

/-! ## Workflows -/

inductive KnowledgeLayer where
  | repo | user | org
  deriving DecidableEq

def KnowledgeLayer.asStr : KnowledgeLayer → String
  | repo => "repo"
  | user => "user"
  | org => "org"

/-- Every layer, from the most general to the most local. -/
def KnowledgeLayer.precedence : List KnowledgeLayer := [org, user, repo]

/-- The layers a request reads: the ones it names, or every layer when it names none. -/
def layersRead (layers : List KnowledgeLayer) : List KnowledgeLayer :=
  KnowledgeLayer.precedence.filter fun layer => layers.isEmpty || layers.contains layer

/-- A node, over the kinds it can be of; `knowledge` are the layers each of its knowledge requests
    names. -/
structure NodeOf (κ : Type) where
  kind : κ
  agent : Option String := none
  runner : Option RunnerName := none
  skills : List String := []
  knowledge : List (List KnowledgeLayer) := []

inductive NodeKind where
  | prompt | loop
  | executor (executor : String)
  | workflow (use : String)
  | parallel (nodes : List (NodeOf NodeKind))
  /-- A command, a check, a gate, a pull request: it opens no session and names no file. -/
  | other

abbrev Node := NodeOf NodeKind

structure Workflow where
  nodes : List Node
  /-- `node_defaults.skills`. -/
  defaultSkills : List String := []

structure RunnerCandidate where
  agent : Option String

structure ConfigLayer where
  alwaysSkills : List String := []
  runners : List (RunnerName × List RunnerCandidate) := []
  defaultRunner : Option RunnerName := none

mutual

/-- A node and every node nested in it, the node first. -/
def nodeAndNested : Node → List Node
  | ⟨kind, agent, runner, skills, knowledge⟩ =>
    ⟨kind, agent, runner, skills, knowledge⟩ :: kindNested kind

def kindNested : NodeKind → List Node
  | .parallel nodes => nodesAndNested nodes
  | _ => []

def nodesAndNested : List Node → List Node
  | [] => []
  | node :: rest => nodeAndNested node ++ nodesAndNested rest

end

def Workflow.iterNodes (workflow : Workflow) : List Node := nodesAndNested workflow.nodes

/-! ## What is interpreted -/

section
variable (config : ConfigLayer)

/-- The runner a node that takes a session resolves. -/
def runnerRole (node : Node) : Option RunnerName := node.runner.or config.defaultRunner

/-- The candidates of the runner a session node names: its own runner, else the defaults'. -/
def candidates (node : Node) : List RunnerCandidate :=
  ((runnerRole config node).bind fun role => config.runners.lookup role).getD []

/-- Whether this node opens the agent session that an adapter's sandbox and stop govern. -/
def opensSession (node : Node) : Bool :=
  match node.kind with
  | .prompt | .loop => true
  | _ => false

/-- The names one node mounts: those every node does, then its own or its workflow's. -/
def skillNames (workflow : Workflow) (node : Node) : List String :=
  (config.alwaysSkills ++
    if node.skills.isEmpty then workflow.defaultSkills else node.skills).eraseDups

/-- The agents a node's sessions run as: its own overrides its candidates'. -/
def agentsOf (node : Node) : List String :=
  if opensSession node then
    match node.agent with
    | some agent => [agent]
    | none => (candidates config node).filterMap (·.agent)
  else []

def skillsOf (workflow : Workflow) (node : Node) : List String :=
  if opensSession node then skillNames config workflow node else []

def executorsOf (node : Node) : List String :=
  match node.kind with
  | .executor executor => [executor]
  | _ => []

def layersOf (node : Node) : List KnowledgeLayer :=
  if opensSession node then node.knowledge.flatMap layersRead else []

def usesOf (node : Node) : List String :=
  match node.kind with
  | .workflow use => [use]
  | _ => []

/-- The child workflows the nodes of a workflow name, in their order. -/
def Workflow.uses (workflow : Workflow) : List String := workflow.iterNodes.flatMap usesOf

/-- What the walk has seen so far: the names the nodes it reached interpret, the child workflows they
    name, the last named first, and the children read so far. -/
structure Reach (φ : Type) where
  agents : Finset String := ∅
  skills : Finset String := ∅
  executors : Finset String := ∅
  layers : List KnowledgeLayer := []
  uses : List String := []
  children : List (String × φ) := []

variable {φ : Type}

/-- Records what one node interprets. -/
def Reach.node (workflow : Workflow) (reach : Reach φ) (node : Node) : Reach φ where
  agents := reach.agents ∪ (agentsOf config node).toFinset
  skills := reach.skills ∪ (skillsOf config workflow node).toFinset
  executors := reach.executors ∪ (executorsOf node).toFinset
  layers := (layersOf node).foldl
    (fun layers layer => if layer ∈ layers then layers else layers ++ [layer]) reach.layers
  uses := (usesOf node).reverse ++ reach.uses
  children := reach.children

/-- Records what each node of `workflow` interprets, and queues the child workflows it names. -/
def Reach.visit (reach : Reach φ) (workflow : Workflow) : Reach φ :=
  workflow.iterNodes.foldl (Reach.node config workflow) reach

/-! ## The walk -/

variable {ε : Type} (readChild : String → Except ε (φ × Workflow))

/-- Reads the children named and not read, the last named first; none where the fuel runs out. -/
def walk : Nat → Reach φ → Option (Except ε (Reach φ))
  | 0, _ => none
  | fuel + 1, reach =>
    match reach.uses with
    | [] => some (.ok reach)
    | name :: uses =>
      if name ∈ reach.children.map Prod.fst then walk fuel { reach with uses }
      else
        match readChild name with
        | .error error => some (.error error)
        | .ok (child, workflow) =>
          walk fuel (Reach.visit config
            { reach with uses, children := reach.children ++ [(name, child)] } workflow)

/-! ## The freeze -/

abbrev Bytes := List UInt8

/-- The bytes a freeze holds, each under the hash it is named by. -/
abbrev Blobs := OrdMap ContentHash Bytes

variable (sha256 : Bytes → ContentHash)

/-- Holds `bytes` and answers with the hash they are named by. -/
def Blobs.keep (blobs : Blobs) (bytes : Bytes) : ContentHash × Blobs :=
  (sha256 bytes, if sha256 bytes ∈ blobs then blobs else blobs.insert (sha256 bytes) bytes)

/-- Holds each of some files. -/
def Blobs.keepAll {κ : Type} (blobs : Blobs) : List (κ × Bytes) → List (κ × ContentHash) × Blobs
  | [] => ([], blobs)
  | (key, bytes) :: files =>
    let kept := blobs.keep sha256 bytes
    let rest := Blobs.keepAll kept.2 files
    ((key, kept.1) :: rest.1, rest.2)

/-- Freezes what each name stands for: its files, read and held. -/
def freezeEach {ν κ : Type} (files : ν → Except ε (List (κ × Bytes))) :
    List ν → Blobs → Except ε (List (ν × List (κ × ContentHash)) × Blobs)
  | [], blobs => .ok ([], blobs)
  | name :: names, blobs =>
    match files name with
    | .error error => .error error
    | .ok read =>
      let kept := blobs.keepAll sha256 read
      match freezeEach files names kept.2 with
      | .error error => .error error
      | .ok (rest, blobs) => .ok ((name, kept.1) :: rest, blobs)

/-- One file of a knowledge layer: the pack it belongs to, its path within its root, and its bytes. -/
structure LayerFile where
  pack : Option String
  relative : String
  bytes : Bytes

/-- The frozen key of a knowledge file. -/
def knowledgeKey (layer : KnowledgeLayer) (pack : Option String) (relative : String) : String :=
  match pack with
  | some pack => layer.asStr ++ ":" ++ pack ++ ":" ++ relative
  | none => layer.asStr ++ ":" ++ relative

/-- What the names of the tree a run is born in stand for: an agent's definition, a skill's files, an
    executor's binary where the config registers it, and the files a knowledge layer lists. -/
structure Tree (ε : Type) where
  agent : String → Except ε Bytes
  skill : String → Except ε (List (PathBuf × Bytes))
  executor : String → Option (Except ε Bytes)
  layer : KnowledgeLayer → Except ε (List LayerFile)

/-- One file, of a name that stands for one. -/
def oneFile (read : Except ε Bytes) : Except ε (List (Unit × Bytes)) := read.map fun bytes => [((), bytes)]

/-- Every input a run's nodes interpret, by content hash. -/
structure Frozen (φ : Type) where
  agents : List (String × List (Unit × ContentHash))
  skills : List (String × List (PathBuf × ContentHash))
  executors : List (String × List (Unit × ContentHash))
  workflows : List (String × φ)
  knowledge : OrdMap String ContentHash

variable (tree : Tree ε)

/-- A name the config does not register has no binary to freeze. -/
def registered (executors : Finset String) : List String :=
  (executors.sort (· ≤ ·)).filter fun name => (tree.executor name).isSome

def executorFile (name : String) : Except ε (List (Unit × Bytes)) :=
  match tree.executor name with
  | some read => oneFile read
  | none => .ok []

/-- The files of a layer, each under its key. -/
def keyed (layer : KnowledgeLayer) : Except ε (List (String × Bytes)) :=
  (tree.layer layer).map (List.map fun file => (knowledgeKey layer file.pack file.relative, file.bytes))

/-- One map of the files of every layer: a key a later file has too names the later one. -/
def oneMap (layers : List (KnowledgeLayer × List (String × ContentHash))) : OrdMap String ContentHash :=
  OrdMap.insertAll ∅ (layers.flatMap (·.2))

/-- Freezes what the names a walk gathered stand for. -/
def freezeReach (reach : Reach φ) : Except ε (Frozen φ × Blobs) :=
  match freezeEach sha256 (fun name => oneFile (tree.agent name)) (reach.agents.sort (· ≤ ·)) ∅ with
  | .error error => .error error
  | .ok (agents, blobs) =>
    match freezeEach sha256 tree.skill (reach.skills.sort (· ≤ ·)) blobs with
    | .error error => .error error
    | .ok (skills, blobs) =>
      match freezeEach sha256 (executorFile tree) (registered tree reach.executors) blobs with
      | .error error => .error error
      | .ok (executors, blobs) =>
        match freezeEach sha256 (keyed tree) reach.layers blobs with
        | .error error => .error error
        | .ok (knowledge, blobs) =>
          .ok (⟨agents, skills, executors, reach.children, oneMap knowledge⟩, blobs)

/-- Freezes what a run born from `workflow` under `config` will interpret. -/
def freeze (fuel : Nat) (workflow : Workflow) : Option (Except ε (Frozen φ × Blobs)) :=
  (walk config readChild fuel (Reach.visit config {} workflow)).map fun walked =>
    match walked with
    | .error error => .error error
    | .ok reach => freezeReach sha256 tree reach

/-! ## What is reached -/

/-- The workflows a run is born with: its own, and each child a node of one of them names. -/
inductive Bears (root : Workflow) : Workflow → Prop
  | root : Bears root root
  | child {workflow child' : Workflow} {name : String} {child : φ} (hborn : Bears root workflow)
      (hname : name ∈ workflow.uses) (hread : readChild name = .ok (child, child')) : Bears root child'

/-- The children a run's nodes name. -/
def Names (root : Workflow) (name : String) : Prop :=
  ∃ workflow, Bears readChild root workflow ∧ name ∈ workflow.uses

/-- What the nodes of a run's workflows interpret, of what one node of a workflow does. -/
def Interpreted {α : Type} (root : Workflow) (ofNode : Workflow → Node → List α) (name : α) : Prop :=
  ∃ workflow, Bears readChild root workflow ∧ ∃ node ∈ workflow.iterNodes, name ∈ ofNode workflow node

/-- The bytes a hash names are held under it. -/
def Held (blobs : Blobs) (hash : ContentHash) : Prop :=
  ∃ bytes, blobs[hash]? = some bytes ∧ sha256 bytes = hash

/-- Just these names frozen, each as the files it stands for, by hashes whose bytes are held. -/
structure FrozenAs {ν κ : Type} (files : ν → Except ε (List (κ × Bytes))) (names : ν → Prop)
    (frozen : List (ν × List (κ × ContentHash))) (blobs : Blobs) : Prop where
  names : ∀ name, name ∈ frozen.map Prod.fst ↔ names name
  files : ∀ entry ∈ frozen, ∃ read, files entry.1 = .ok read ∧
    entry.2 = (read.map fun file => (file.1, sha256 file.2)) ∧
    ∀ file ∈ read, Held sha256 blobs (sha256 file.2)

/-- Just the files of these layers frozen, each under its key by a hash whose bytes are held: of a
    layer's files of one key, the last it lists. -/
structure FrozenLayers (names : KnowledgeLayer → Prop) (frozen : OrdMap String ContentHash)
    (blobs : Blobs) : Prop where
  read : ∀ layer, names layer → ∃ files, keyed tree layer = .ok files
  last : ∀ layer files, names layer → keyed tree layer = .ok files → ∀ key bytes,
    files.reverse.lookup key = some bytes → frozen[key]? = some (sha256 bytes) ∧
      Held sha256 blobs (sha256 bytes)
  only : ∀ key hash, frozen[key]? = some hash → ∃ layer files bytes, names layer ∧
    keyed tree layer = .ok files ∧ files.reverse.lookup key = some bytes ∧ hash = sha256 bytes

/-- A freeze that holds exactly what the nodes of a run's workflows interpret. -/
structure Whole (root : Workflow) (frozen : Frozen φ) (blobs : Blobs) : Prop where
  workflows : ∀ name, name ∈ frozen.workflows.map Prod.fst ↔ Names readChild root name
  texts : ∀ entry ∈ frozen.workflows, ∃ workflow, readChild entry.1 = .ok (entry.2, workflow)
  agents : FrozenAs sha256 (fun name => oneFile (tree.agent name))
    (Interpreted readChild root fun _ => agentsOf config) frozen.agents blobs
  skills : FrozenAs sha256 tree.skill (Interpreted readChild root (skillsOf config)) frozen.skills blobs
  executors : FrozenAs sha256 (executorFile tree)
    (fun name => Interpreted readChild root (fun _ => executorsOf) name ∧
      (tree.executor name).isSome = true) frozen.executors blobs
  knowledge : FrozenLayers sha256 tree (Interpreted readChild root fun _ => layersOf)
    frozen.knowledge blobs

end

/-! ## What a visit gathers -/

/-- What a fold over items holds, where each item adds its own. -/
theorem foldl_holds {α ρ ν : Type} {step : ρ → ν → ρ} {holds : ρ → α → Prop} {adds : ν → α → Prop}
    (hstep : ∀ state item a, holds (step state item) a ↔ holds state a ∨ adds item a)
    (state : ρ) (items : List ν) (a : α) :
    holds (items.foldl step state) a ↔ holds state a ∨ ∃ item ∈ items, adds item a := by
  induction items generalizing state with
  | nil => simp
  | cons item items ih =>
    rw [List.foldl_cons, ih, hstep, or_assoc]
    simp

section
variable {config : ConfigLayer} {φ ε : Type} {readChild : String → Except ε (φ × Workflow)}

theorem mem_agents_visit (reach : Reach φ) (workflow : Workflow) (name : String) :
    name ∈ (reach.visit config workflow).agents ↔
      name ∈ reach.agents ∨ ∃ node ∈ workflow.iterNodes, name ∈ agentsOf config node :=
  @foldl_holds _ _ _ (Reach.node config workflow) (fun reach name => name ∈ reach.agents)
    (fun node name => name ∈ agentsOf config node) (fun reach node name => by simp [Reach.node]) reach _ name

theorem mem_skills_visit (reach : Reach φ) (workflow : Workflow) (name : String) :
    name ∈ (reach.visit config workflow).skills ↔
      name ∈ reach.skills ∨ ∃ node ∈ workflow.iterNodes, name ∈ skillsOf config workflow node :=
  @foldl_holds _ _ _ (Reach.node config workflow) (fun reach name => name ∈ reach.skills)
    (fun node name => name ∈ skillsOf config workflow node) (fun reach node name => by simp [Reach.node])
    reach _ name

theorem mem_executors_visit (reach : Reach φ) (workflow : Workflow) (name : String) :
    name ∈ (reach.visit config workflow).executors ↔
      name ∈ reach.executors ∨ ∃ node ∈ workflow.iterNodes, name ∈ executorsOf node :=
  @foldl_holds _ _ _ (Reach.node config workflow) (fun reach name => name ∈ reach.executors)
    (fun node name => name ∈ executorsOf node) (fun reach node name => by simp [Reach.node]) reach _ name

theorem mem_layers_visit (reach : Reach φ) (workflow : Workflow) (layer : KnowledgeLayer) :
    layer ∈ (reach.visit config workflow).layers ↔
      layer ∈ reach.layers ∨ ∃ node ∈ workflow.iterNodes, layer ∈ layersOf node := by
  refine @foldl_holds _ _ _ (Reach.node config workflow) (fun reach layer => layer ∈ reach.layers)
    (fun node layer => layer ∈ layersOf node) (fun reach node layer => ?_) reach _ layer
  have hadd : ∀ (layers : List KnowledgeLayer) (other layer : KnowledgeLayer),
      layer ∈ (if other ∈ layers then layers else layers ++ [other]) ↔ layer ∈ layers ∨ layer = other := by
    intro layers other layer
    split
    · next hmem => exact ⟨.inl, fun h => h.elim id fun heq => heq ▸ hmem⟩
    · simp
  have hall := foldl_holds hadd reach.layers (layersOf node) layer
  simpa [Reach.node] using hall

theorem uses_visit (reach : Reach φ) (workflow : Workflow) :
    (reach.visit config workflow).uses = workflow.uses.reverse ++ reach.uses := by
  have hall : ∀ nodes : List Node, (nodes.foldl (Reach.node config workflow) reach).uses =
      (nodes.flatMap usesOf).reverse ++ reach.uses := by
    intro nodes
    induction nodes generalizing reach with
    | nil => rfl
    | cons node nodes ih =>
      rw [List.foldl_cons, ih, List.flatMap_cons, List.reverse_append, List.append_assoc]
      rfl
  exact hall workflow.iterNodes

theorem mem_uses_visit (reach : Reach φ) (workflow : Workflow) (name : String) :
    name ∈ (reach.visit config workflow).uses ↔ name ∈ reach.uses ∨ name ∈ workflow.uses := by
  rw [uses_visit, List.mem_append, List.mem_reverse]
  exact or_comm

theorem children_visit (reach : Reach φ) (workflow : Workflow) :
    (reach.visit config workflow).children = reach.children := by
  have hall : ∀ nodes : List Node,
      (nodes.foldl (Reach.node config workflow) reach).children = reach.children := by
    intro nodes
    induction nodes generalizing reach with
    | nil => rfl
    | cons node nodes ih => exact ih (Reach.node config workflow reach node)
  exact hall workflow.iterNodes

/-! ## What the walk has gathered -/

/-- A workflow the walk has seen: the run's own, or one a child was read as. -/
def Seen (readChild : String → Except ε (φ × Workflow)) (root : Workflow) (reach : Reach φ)
    (workflow : Workflow) : Prop :=
  workflow = root ∨ ∃ name ∈ reach.children.map Prod.fst, ∃ child, readChild name = .ok (child, workflow)

/-- What the walk holds is what the workflows it has seen interpret, and what they name is read or
    queued. -/
structure Gathered (config : ConfigLayer) (readChild : String → Except ε (φ × Workflow))
    (root : Workflow) (reach : Reach φ) : Prop where
  agents : ∀ name, name ∈ reach.agents ↔ ∃ workflow, Seen readChild root reach workflow ∧
    ∃ node ∈ workflow.iterNodes, name ∈ agentsOf config node
  skills : ∀ name, name ∈ reach.skills ↔ ∃ workflow, Seen readChild root reach workflow ∧
    ∃ node ∈ workflow.iterNodes, name ∈ skillsOf config workflow node
  executors : ∀ name, name ∈ reach.executors ↔ ∃ workflow, Seen readChild root reach workflow ∧
    ∃ node ∈ workflow.iterNodes, name ∈ executorsOf node
  layers : ∀ layer, layer ∈ reach.layers ↔ ∃ workflow, Seen readChild root reach workflow ∧
    ∃ node ∈ workflow.iterNodes, layer ∈ layersOf node
  uses : ∀ workflow, Seen readChild root reach workflow → ∀ name ∈ workflow.uses,
    name ∈ reach.children.map Prod.fst ∨ name ∈ reach.uses
  named : ∀ name, name ∈ reach.children.map Prod.fst ∨ name ∈ reach.uses → Names readChild root name
  texts : ∀ entry ∈ reach.children, ∃ workflow, readChild entry.1 = .ok (entry.2, workflow)

/-- One more workflow seen adds what it interprets. -/
theorem exists_seen {root workflow : Workflow} {reach reach' : Reach φ} {P : Workflow → Prop}
    (hseen : ∀ other, Seen readChild root reach' other ↔ Seen readChild root reach other ∨ other = workflow) :
    (∃ other, Seen readChild root reach' other ∧ P other) ↔
      (∃ other, Seen readChild root reach other ∧ P other) ∨ P workflow := by
  constructor
  · rintro ⟨other, hother, hholds⟩
    rcases (hseen other).mp hother with hbefore | rfl
    · exact .inl ⟨other, hbefore, hholds⟩
    · exact .inr hholds
  · rintro (⟨other, hother, hholds⟩ | hholds)
    · exact ⟨other, (hseen other).mpr (.inl hother), hholds⟩
    · exact ⟨workflow, (hseen workflow).mpr (.inr rfl), hholds⟩

/-- The walk's first visit gathers what the run's own workflow interprets. -/
theorem gathered_root (root : Workflow) :
    Gathered config readChild root (Reach.visit config {} root) := by
  have hchildren : (Reach.visit config ({} : Reach φ) root).children = [] := children_visit {} root
  have hseen : ∀ other, Seen readChild root (Reach.visit config {} root) other ↔ other = root := by
    intro other
    rw [Seen, hchildren]
    simp
  have hone : ∀ {P : Workflow → Prop},
      (∃ other, Seen readChild root (Reach.visit config {} root) other ∧ P other) ↔ P root := by
    intro P
    simp [hseen]
  refine ⟨fun name => ?_, fun name => ?_, fun name => ?_, fun layer => ?_, fun other hother name hname => ?_,
    fun name hname => ?_, fun entry hentry => ?_⟩
  · rw [hone, mem_agents_visit]
    simp
  · rw [hone, mem_skills_visit]
    simp
  · rw [hone, mem_executors_visit]
    simp
  · rw [hone, mem_layers_visit]
    simp
  · obtain rfl := (hseen other).mp hother
    exact .inr ((mem_uses_visit _ _ _).mpr (.inr hname))
  · rw [hchildren] at hname
    rcases hname with hname | hname
    · cases hname
    · rcases (mem_uses_visit _ _ _).mp hname with hname | hname
      · cases hname
      · exact ⟨root, .root, hname⟩
  · rw [hchildren] at hentry
    cases hentry

/-- A name read before is taken off the queue. -/
theorem Gathered.skip {root : Workflow} {reach : Reach φ} (h : Gathered config readChild root reach)
    {name : String} {uses : List String} (huses : reach.uses = name :: uses)
    (hread : name ∈ reach.children.map Prod.fst) :
    Gathered config readChild root { reach with uses } := by
  refine ⟨h.agents, h.skills, h.executors, h.layers, fun workflow hseen other hother => ?_,
    fun other hother => h.named other ?_, h.texts⟩
  · rcases h.uses workflow hseen other hother with hdone | hqueued
    · exact .inl hdone
    · rw [huses] at hqueued
      rcases List.mem_cons.mp hqueued with rfl | hqueued
      · exact .inl hread
      · exact .inr hqueued
  · rw [huses]
    exact hother.imp_right (List.mem_cons_of_mem name)

/-- A child read is visited, and its own children are queued. -/
theorem Gathered.child {root : Workflow} {reach : Reach φ} (h : Gathered config readChild root reach)
    {name : String} {uses : List String} (huses : reach.uses = name :: uses) {child : φ}
    {workflow : Workflow} (hread : readChild name = .ok (child, workflow)) :
    Gathered config readChild root (Reach.visit config
      { reach with uses, children := reach.children ++ [(name, child)] } workflow) := by
  have hchildren : (Reach.visit config
      { reach with uses, children := reach.children ++ [(name, child)] } workflow).children =
        reach.children ++ [(name, child)] := children_visit _ _
  have hkeys : ∀ other, other ∈ (reach.children ++ [(name, child)]).map Prod.fst ↔
      other ∈ reach.children.map Prod.fst ∨ other = name := by
    intro other
    simp
  have hseen : ∀ other, Seen readChild root (Reach.visit config
      { reach with uses, children := reach.children ++ [(name, child)] } workflow) other ↔
        Seen readChild root reach other ∨ other = workflow := by
    intro other
    rw [Seen, Seen, hchildren]
    constructor
    · rintro (rfl | ⟨name', hname', child', hchild'⟩)
      · exact .inl (.inl rfl)
      · rcases (hkeys name').mp hname' with hname' | rfl
        · exact .inl (.inr ⟨name', hname', child', hchild'⟩)
        · rw [hread] at hchild'
          exact .inr ((Prod.mk.inj (Except.ok.inj hchild')).2).symm
    · rintro ((rfl | ⟨name', hname', child', hchild'⟩) | rfl)
      · exact .inl rfl
      · exact .inr ⟨name', (hkeys name').mpr (.inl hname'), child', hchild'⟩
      · exact .inr ⟨name, (hkeys name).mpr (.inr rfl), child, hread⟩
  obtain ⟨from_, hfrom, hname⟩ := h.named name (.inr (by rw [huses]; exact List.mem_cons_self ..))
  have hborn : Bears readChild root workflow := .child hfrom hname hread
  refine ⟨fun name => ?_, fun name => ?_, fun name => ?_, fun layer => ?_, fun other hother name' hname' => ?_,
    fun name' hname' => ?_, fun entry hentry => ?_⟩
  · rw [mem_agents_visit, exists_seen hseen, ← h.agents]
  · rw [mem_skills_visit, exists_seen hseen, ← h.skills]
  · rw [mem_executors_visit, exists_seen hseen, ← h.executors]
  · rw [mem_layers_visit, exists_seen hseen, ← h.layers]
  · rw [hchildren, hkeys, mem_uses_visit]
    rcases (hseen other).mp hother with hother | rfl
    · rcases h.uses other hother name' hname' with hdone | hqueued
      · exact .inl (.inl hdone)
      · rw [huses] at hqueued
        rcases List.mem_cons.mp hqueued with rfl | hqueued
        · exact .inl (.inr rfl)
        · exact .inr (.inl hqueued)
    · exact .inr (.inr hname')
  · rw [hchildren, hkeys, mem_uses_visit] at hname'
    rcases hname' with (hdone | rfl) | (hqueued | hnamed)
    · exact h.named name' (.inl hdone)
    · exact ⟨from_, hfrom, hname⟩
    · exact h.named name' (.inr (by rw [huses]; exact List.mem_cons_of_mem _ hqueued))
    · exact ⟨workflow, hborn, hnamed⟩
  · rw [hchildren] at hentry
    rcases List.mem_append.mp hentry with hentry | hentry
    · exact h.texts entry hentry
    · rw [List.mem_singleton.mp hentry]
      exact ⟨workflow, hread⟩

/-- **What a walk comes to**: all gathered and nothing left to read, or a child it could not read. -/
theorem walk_gathered {root : Workflow} {fuel : Nat} {reach : Reach φ}
    (h : Gathered config readChild root reach) :
    (∀ reach', walk config readChild fuel reach = some (.ok reach') →
      Gathered config readChild root reach' ∧ reach'.uses = []) ∧
    ∀ error, walk config readChild fuel reach = some (.error error) →
      ∃ name, Names readChild root name ∧ readChild name = .error error := by
  induction fuel generalizing reach with
  | zero => exact ⟨fun _ hwalk => (by cases hwalk), fun _ hwalk => (by cases hwalk)⟩
  | succ fuel ih =>
    rw [walk]
    cases huses : reach.uses with
    | nil =>
      refine ⟨fun reach' hwalk => ?_, fun error hwalk => (by cases hwalk)⟩
      obtain rfl := Except.ok.inj (Option.some.inj hwalk)
      exact ⟨h, huses⟩
    | cons name uses =>
      dsimp only
      split
      · next hdone => exact ih (h.skip huses hdone)
      · cases hread : readChild name with
        | error error =>
          refine ⟨fun reach' hwalk => (by cases hwalk), fun error' hwalk => ?_⟩
          obtain rfl := Except.error.inj (Option.some.inj hwalk)
          exact ⟨name, h.named name (.inr (by rw [huses]; exact List.mem_cons_self ..)), hread⟩
        | ok read => exact ih (h.child huses hread)

/-- Once nothing is left to read, the workflows seen are those the run is born with. -/
theorem Gathered.seen_iff {root : Workflow} {reach : Reach φ}
    (h : Gathered config readChild root reach) (hdone : reach.uses = []) (workflow : Workflow) :
    Seen readChild root reach workflow ↔ Bears readChild root workflow := by
  constructor
  · rintro (rfl | ⟨name, hname, child, hread⟩)
    · exact .root
    · obtain ⟨from_, hfrom, hnamed⟩ := h.named name (.inl hname)
      exact .child hfrom hnamed hread
  · intro hborn
    induction hborn with
    | root => exact .inl rfl
    | @child from_ workflow name child hfrom hname hread ih =>
      rcases h.uses from_ ih name hname with hdone' | hqueued
      · exact .inr ⟨name, hdone', child, hread⟩
      · rw [hdone] at hqueued
        cases hqueued

theorem Gathered.names_iff {root : Workflow} {reach : Reach φ}
    (h : Gathered config readChild root reach) (hdone : reach.uses = []) (name : String) :
    name ∈ reach.children.map Prod.fst ↔ Names readChild root name := by
  refine ⟨fun hname => h.named name (.inl hname), fun hname => ?_⟩
  obtain ⟨workflow, hborn, hnamed⟩ := hname
  rcases h.uses workflow ((h.seen_iff hdone workflow).mpr hborn) name hnamed with hread | hqueued
  · exact hread
  · rw [hdone] at hqueued
    cases hqueued

/-- What the workflows seen interpret is what the run's workflows do. -/
theorem Gathered.interpreted_iff {root : Workflow} {reach : Reach φ}
    (h : Gathered config readChild root reach) (hdone : reach.uses = []) {α : Type}
    {ofNode : Workflow → Node → List α} {name : α} :
    (∃ workflow, Seen readChild root reach workflow ∧
      ∃ node ∈ workflow.iterNodes, name ∈ ofNode workflow node) ↔ Interpreted readChild root ofNode name :=
  exists_congr fun workflow => and_congr_left fun _ => h.seen_iff hdone workflow

/-! ## Fuel -/

/-- The children a child's own nodes name. -/
def nextUses (readChild : String → Except ε (φ × Workflow)) (name : String) : List String :=
  match readChild name with
  | .ok (_, workflow) => workflow.uses
  | .error _ => []

/-- Where finitely many names stand for a child, the walk comes to an end. -/
theorem walk_ends {whole : List String}
    (hwhole : ∀ name read, readChild name = .ok read → name ∈ whole) {fuel : Nat} {reach : Reach φ}
    (hfuel : reach.uses.length +
      Visit.pushes (nextUses readChild) whole (reach.children.map Prod.fst) < fuel) :
    walk config readChild fuel reach ≠ none := by
  induction fuel generalizing reach with
  | zero => exact absurd hfuel (Nat.not_lt_zero _)
  | succ fuel ih =>
    rw [walk]
    cases huses : reach.uses with
    | nil => exact Option.some_ne_none _
    | cons name uses =>
      rw [huses, List.length_cons] at hfuel
      dsimp only
      split
      · refine ih ?_
        dsimp only
        omega
      · next hnew =>
        cases hread : readChild name with
        | error error => exact Option.some_ne_none _
        | ok read =>
          have hnext : nextUses readChild name = read.2.uses := by
            rw [nextUses, hread]
          have htaken := Visit.pushes_taken (nextUses readChild) hnew
            fun _ => hwhole name read hread
          rw [hnext] at htaken
          refine ih ?_
          rw [uses_visit, children_visit, List.length_append, List.length_reverse, List.map_append]
          show read.2.uses.length + uses.length + Visit.pushes (nextUses readChild) whole
            (reach.children.map Prod.fst ++ [name]) < fuel
          omega

/-! ## What is held -/

variable {sha256 : Bytes → ContentHash} {tree : Tree ε}

/-- Every blob is held under its own hash. -/
def Sound (sha256 : Bytes → ContentHash) (blobs : Blobs) : Prop :=
  ∀ (hash : ContentHash) (bytes : Bytes), blobs[hash]? = some bytes → sha256 bytes = hash

theorem Sound.held {blobs : Blobs} (h : Sound sha256 blobs) {hash : ContentHash} (hmem : hash ∈ blobs) :
    Held sha256 blobs hash := by
  obtain ⟨bytes, hbytes⟩ := Option.isSome_iff_exists.mp (Std.ExtTreeMap.mem_iff_isSome_getElem?.mp hmem)
  exact ⟨bytes, hbytes, h hash bytes hbytes⟩

/-- Bytes kept are held, and so is what was. -/
theorem keep_held {blobs : Blobs} (h : Sound sha256 blobs) (bytes : Bytes) :
    Sound sha256 (blobs.keep sha256 bytes).2 ∧
      Held sha256 (blobs.keep sha256 bytes).2 (sha256 bytes) ∧
      ∀ hash, Held sha256 blobs hash → Held sha256 (blobs.keep sha256 bytes).2 hash := by
  rw [Blobs.keep]
  dsimp only
  split
  · next hmem => exact ⟨h, h.held hmem, fun _ hheld => hheld⟩
  · next hnew =>
    have hsound : Sound sha256 (blobs.insert (sha256 bytes) bytes) := by
      intro hash other hother
      rw [Std.ExtTreeMap.getElem?_insert] at hother
      split at hother
      · next heq =>
        rw [← Option.some.inj hother]
        exact Std.LawfulEqCmp.eq_of_compare heq
      · exact h hash other hother
    refine ⟨hsound, hsound.held Std.ExtTreeMap.mem_insert_self, fun hash hheld => ?_⟩
    obtain ⟨other, hother, -⟩ := hheld
    refine hsound.held (Std.ExtTreeMap.mem_insert.mpr (.inr ?_))
    rw [Std.ExtTreeMap.mem_iff_isSome_getElem?, hother]
    rfl

theorem keepAll_held {κ : Type} {blobs : Blobs} (h : Sound sha256 blobs) (files : List (κ × Bytes)) :
    Sound sha256 (blobs.keepAll sha256 files).2 ∧
      (blobs.keepAll sha256 files).1 = (files.map fun file => (file.1, sha256 file.2)) ∧
      (∀ file ∈ files, Held sha256 (blobs.keepAll sha256 files).2 (sha256 file.2)) ∧
      ∀ hash, Held sha256 blobs hash → Held sha256 (blobs.keepAll sha256 files).2 hash := by
  induction files generalizing blobs with
  | nil => exact ⟨h, rfl, fun _ hfile => (by cases hfile), fun _ hheld => hheld⟩
  | cons file files ih =>
    obtain ⟨hsound, hself, hkept⟩ := keep_held h file.2
    obtain ⟨hsound', hhashes, hfiles, hkept'⟩ := ih hsound
    refine ⟨hsound', ?_, fun other hother => ?_, fun hash hheld => hkept' hash (hkept hash hheld)⟩
    · rw [List.map_cons, ← hhashes]
      rfl
    · rcases List.mem_cons.mp hother with rfl | hother
      · exact hkept' _ hself
      · exact hfiles other hother

/-- What freezing some names comes to, where it does: each frozen as the files it stands for. -/
theorem freezeEach_ok {ν κ : Type} {files : ν → Except ε (List (κ × Bytes))} {names : List ν}
    {blobs : Blobs} (h : Sound sha256 blobs) {frozen : List (ν × List (κ × ContentHash))}
    {blobs' : Blobs} (hfrozen : freezeEach sha256 files names blobs = .ok (frozen, blobs')) :
    Sound sha256 blobs' ∧ frozen.map Prod.fst = names ∧
      (∀ entry ∈ frozen, ∃ read, files entry.1 = .ok read ∧
        entry.2 = (read.map fun file => (file.1, sha256 file.2)) ∧
        ∀ file ∈ read, Held sha256 blobs' (sha256 file.2)) ∧
      ∀ hash, Held sha256 blobs hash → Held sha256 blobs' hash := by
  induction names generalizing blobs frozen blobs' with
  | nil =>
    obtain ⟨rfl, rfl⟩ := Prod.mk.inj (Except.ok.inj hfrozen)
    exact ⟨h, rfl, fun _ hentry => (by cases hentry), fun _ hheld => hheld⟩
  | cons name names ih =>
    rw [freezeEach] at hfrozen
    cases hread : files name with
    | error error => rw [hread] at hfrozen; cases hfrozen
    | ok read =>
      rw [hread] at hfrozen
      dsimp only at hfrozen
      obtain ⟨hsound, hhashes, hfiles, hkept⟩ := keepAll_held h read
      cases hrest : freezeEach sha256 files names (blobs.keepAll sha256 read).2 with
      | error error => rw [hrest] at hfrozen; cases hfrozen
      | ok rest =>
        obtain ⟨rest, last⟩ := rest
        rw [hrest] at hfrozen
        obtain ⟨rfl, rfl⟩ := Prod.mk.inj (Except.ok.inj hfrozen)
        obtain ⟨hsound', hnames, hentries, hkept'⟩ := ih hsound hrest
        refine ⟨hsound', by rw [List.map_cons, hnames], fun entry hentry => ?_,
          fun hash hheld => hkept' hash (hkept hash hheld)⟩
        rcases List.mem_cons.mp hentry with rfl | hentry
        · exact ⟨read, hread, hhashes, fun file hfile => hkept' _ (hfiles file hfile)⟩
        · exact hentries entry hentry

/-- A freeze of some names that is refused is refused by what one of them stands for. -/
theorem freezeEach_error {ν κ : Type} {files : ν → Except ε (List (κ × Bytes))} {names : List ν}
    {blobs : Blobs} {error : ε} (h : freezeEach sha256 files names blobs = .error error) :
    ∃ name ∈ names, files name = .error error := by
  induction names generalizing blobs with
  | nil => cases h
  | cons name names ih =>
    rw [freezeEach] at h
    cases hread : files name with
    | error other =>
      rw [hread] at h
      rw [Except.error.inj h] at hread
      exact ⟨name, List.mem_cons_self, hread⟩
    | ok read =>
      rw [hread] at h
      dsimp only at h
      cases hrest : freezeEach sha256 files names (blobs.keepAll sha256 read).2 with
      | error other =>
        rw [hrest] at h
        rw [Except.error.inj h] at hrest
        obtain ⟨name', hmem, hname'⟩ := ih hrest
        exact ⟨name', List.mem_cons_of_mem name hmem, hname'⟩
      | ok rest => rw [hrest] at h; cases h

/-! ## The freeze -/

theorem FrozenAs.kept {ν κ : Type} {files : ν → Except ε (List (κ × Bytes))} {names : ν → Prop}
    {frozen : List (ν × List (κ × ContentHash))} {blobs blobs' : Blobs}
    (h : FrozenAs sha256 files names frozen blobs)
    (hkept : ∀ hash, Held sha256 blobs hash → Held sha256 blobs' hash) :
    FrozenAs sha256 files names frozen blobs' := by
  refine ⟨h.names, fun entry hentry => ?_⟩
  obtain ⟨read, hread, hhashes, hheld⟩ := h.files entry hentry
  exact ⟨read, hread, hhashes, fun file hfile => hkept _ (hheld file hfile)⟩

theorem freezeEach_frozenAs {ν κ : Type} {files : ν → Except ε (List (κ × Bytes))} {names : List ν}
    {blobs blobs' : Blobs} {frozen : List (ν × List (κ × ContentHash))} {named : ν → Prop}
    (hsound : Sound sha256 blobs) (hnamed : ∀ name, name ∈ names ↔ named name)
    (hfrozen : freezeEach sha256 files names blobs = .ok (frozen, blobs')) :
    Sound sha256 blobs' ∧ FrozenAs sha256 files named frozen blobs' ∧
      ∀ hash, Held sha256 blobs hash → Held sha256 blobs' hash := by
  obtain ⟨hsound', hnames, hfiles, hkept⟩ := freezeEach_ok hsound hfrozen
  exact ⟨hsound', ⟨fun name => by rw [hnames, hnamed], hfiles⟩, hkept⟩

/-! ### Layers -/

/-- The first letter of a key says which layer it is of. -/
theorem layer_of_key {layer layer' : KnowledgeLayer} {pack pack' : Option String}
    {relative relative' : String}
    (h : knowledgeKey layer pack relative = knowledgeKey layer' pack' relative') : layer = layer' := by
  have hfirst : ∀ (layer : KnowledgeLayer) pack relative,
      (knowledgeKey layer pack relative).toList.head? = layer.asStr.toList.head? := by
    intro layer pack relative
    cases layer <;> cases pack <;>
      simp [knowledgeKey, KnowledgeLayer.asStr, String.toList_append]
  have hletter := hfirst layer pack relative
  rw [h, hfirst] at hletter
  cases layer <;> cases layer' <;> first | rfl | exact absurd hletter (by decide)

theorem lookup_mem {α β : Type} [DecidableEq α] {key : α} {value : β} {entries : List (α × β)}
    (h : entries.reverse.lookup key = some value) : (key, value) ∈ entries := by
  obtain ⟨before, after, hsplit, -⟩ := List.lookup_eq_some_iff.mp h
  rw [← List.mem_reverse, hsplit]
  exact List.mem_append_right _ (List.mem_cons_self ..)

/-- Every key of a layer's files names the layer. -/
theorem keyed_key {layer : KnowledgeLayer} {files : List (String × Bytes)}
    (hread : keyed tree layer = .ok files) {file : String × Bytes} (hfile : file ∈ files) :
    ∃ pack relative, file.1 = knowledgeKey layer pack relative := by
  rw [keyed] at hread
  cases hlist : tree.layer layer with
  | error error => rw [hlist] at hread; cases hread
  | ok listed =>
    rw [hlist] at hread
    obtain rfl := Except.ok.inj hread
    obtain ⟨one, -, rfl⟩ := List.mem_map.mp hfile
    exact ⟨one.pack, one.relative, rfl⟩

theorem lookup_hashed (files : List (String × Bytes)) (key : String) :
    (files.map fun file => (file.1, sha256 file.2)).reverse.lookup key =
      (files.reverse.lookup key).map sha256 := by
  rw [← List.map_reverse]
  induction files.reverse with
  | nil => rfl
  | cons file files ih =>
    rw [List.map_cons, List.lookup_cons, List.lookup_cons, ih]
    cases key == file.1 <;> rfl

/-- What a freeze makes of a layer: its files, each under its key by its hash. -/
def Hashed (sha256 : Bytes → ContentHash) (tree : Tree ε)
    (entry : KnowledgeLayer × List (String × ContentHash)) : Prop :=
  ∃ files, keyed tree entry.1 = .ok files ∧ entry.2 = files.map fun file => (file.1, sha256 file.2)

/-- Writing one layer's files leaves the keys of every other one. -/
theorem insertAll_hashed {entry : KnowledgeLayer × List (String × ContentHash)}
    (hentry : Hashed sha256 tree entry) {layer : KnowledgeLayer} {files : List (String × Bytes)}
    (hread : keyed tree layer = .ok files) {key : String} {bytes : Bytes}
    (hlast : files.reverse.lookup key = some bytes) {frozen : OrdMap String ContentHash}
    (h : layer = entry.1 ∨ frozen[key]? = some (sha256 bytes)) :
    (OrdMap.insertAll frozen entry.2)[key]? = some (sha256 bytes) := by
  obtain ⟨files', hread', hhashes⟩ := hentry
  rw [OrdMap.getElem?_insertAll, hhashes, lookup_hashed]
  by_cases hsame : layer = entry.1
  · rw [hsame, hread'] at hread
    rw [Except.ok.inj hread, hlast]
    rfl
  · have hnone : files'.reverse.lookup key = none := by
      refine Option.eq_none_iff_forall_ne_some.mpr fun bytes' hother => hsame ?_
      obtain ⟨pack, relative, hkey⟩ := keyed_key hread (lookup_mem hlast)
      obtain ⟨pack', relative', hkey'⟩ := keyed_key hread' (lookup_mem hother)
      exact layer_of_key (hkey.symm.trans hkey')
    rw [hnone]
    exact h.resolve_left hsame

/-- What a map of layers holds under a key of one of them. -/
theorem oneMap_last {layers : List (KnowledgeLayer × List (String × ContentHash))}
    (hlayers : ∀ entry ∈ layers, Hashed sha256 tree entry) {layer : KnowledgeLayer}
    {files : List (String × Bytes)} (hread : keyed tree layer = .ok files) {key : String}
    {bytes : Bytes} (hlast : files.reverse.lookup key = some bytes) {frozen : OrdMap String ContentHash}
    (h : layer ∈ layers.map Prod.fst ∨ frozen[key]? = some (sha256 bytes)) :
    (OrdMap.insertAll frozen (layers.flatMap (·.2)))[key]? = some (sha256 bytes) := by
  induction layers generalizing frozen with
  | nil => exact h.resolve_left List.not_mem_nil
  | cons entry layers ih =>
    rw [List.flatMap_cons, OrdMap.insertAll, List.foldl_append]
    refine ih (fun other hother => hlayers other (List.mem_cons_of_mem _ hother)) ?_
    have hentry := hlayers entry List.mem_cons_self
    rcases h with hmem | hheld
    · rcases List.mem_cons.mp hmem with hself | hmem
      · exact .inr (insertAll_hashed hentry hread hlast (.inl hself))
      · exact .inl hmem
    · exact .inr (insertAll_hashed hentry hread hlast (.inr hheld))

/-- What a map of layers holds, it holds of one of them. -/
theorem oneMap_only {layers : List (KnowledgeLayer × List (String × ContentHash))}
    (hlayers : ∀ entry ∈ layers, Hashed sha256 tree entry) {key : String} {hash : ContentHash}
    (h : (oneMap layers)[key]? = some hash) :
    ∃ layer files bytes, layer ∈ layers.map Prod.fst ∧ keyed tree layer = .ok files ∧
      files.reverse.lookup key = some bytes ∧ hash = sha256 bytes := by
  rw [oneMap, OrdMap.getElem?_insertAll, Std.ExtTreeMap.getElem?_empty, Option.or_none] at h
  obtain ⟨entry, hentry, hmem⟩ := List.mem_flatMap.mp (lookup_mem h)
  obtain ⟨files, hread, hhashes⟩ := hlayers entry hentry
  rw [hhashes] at hmem
  obtain ⟨file, hfile, heq⟩ := List.mem_map.mp hmem
  -- the layer lists a file of this key, so it has a last one, and that one is what the map holds
  cases hlast : files.reverse.lookup key with
  | none =>
    refine absurd (Prod.mk.inj heq).1.symm ?_
    simpa using List.lookup_eq_none_iff.mp hlast file (List.mem_reverse.mpr hfile)
  | some bytes =>
    have hheld := @oneMap_last ε sha256 tree layers hlayers entry.1 files hread key bytes hlast ∅
      (.inl (List.mem_map_of_mem hentry))
    rw [OrdMap.getElem?_insertAll, h] at hheld
    exact ⟨entry.1, files, bytes, List.mem_map_of_mem hentry, hread, hlast, Option.some.inj hheld⟩

/-- The layers a freeze read, in one map. -/
theorem FrozenAs.layers {layers : List (KnowledgeLayer × List (String × ContentHash))}
    {names : KnowledgeLayer → Prop} {blobs : Blobs}
    (h : FrozenAs sha256 (keyed tree) names layers blobs) :
    FrozenLayers sha256 tree names (oneMap layers) blobs := by
  have hhashed : ∀ entry ∈ layers, Hashed sha256 tree entry := by
    intro entry hentry
    obtain ⟨files, hread, hhashes, -⟩ := h.files entry hentry
    exact ⟨files, hread, hhashes⟩
  have hnamed : ∀ layer, names layer → ∃ entry ∈ layers, entry.1 = layer := by
    intro layer hname
    exact List.mem_map.mp ((h.names layer).mpr hname)
  refine ⟨fun layer hname => ?_, fun layer files hname hread key bytes hlast => ⟨?_, ?_⟩,
    fun key hash hheld => ?_⟩
  · obtain ⟨entry, hentry, rfl⟩ := hnamed layer hname
    obtain ⟨files, hread, -⟩ := h.files entry hentry
    exact ⟨files, hread⟩
  · exact oneMap_last hhashed hread hlast (.inl ((h.names layer).mpr hname))
  · obtain ⟨entry, hentry, rfl⟩ := hnamed layer hname
    obtain ⟨files', hread', -, hheld⟩ := h.files entry hentry
    rw [hread] at hread'
    obtain rfl := Except.ok.inj hread'
    exact hheld _ (lookup_mem hlast)
  · obtain ⟨layer, files, bytes, hmem, hread, hlast, hhash⟩ := oneMap_only hhashed hheld
    exact ⟨layer, files, bytes, (h.names layer).mp hmem, hread, hlast, hhash⟩

/-! ### The whole freeze -/

variable {root : Workflow} {reach : Reach φ}

theorem mem_registered (h : Gathered config readChild root reach) (hdone : reach.uses = [])
    (name : String) :
    name ∈ registered tree reach.executors ↔
      Interpreted readChild root (fun _ => executorsOf) name ∧ (tree.executor name).isSome = true := by
  rw [registered, List.mem_filter, Finset.mem_sort, h.executors, h.interpreted_iff hdone]

/-- A freeze of all that was gathered is whole. -/
theorem freezeReach_whole (h : Gathered config readChild root reach) (hdone : reach.uses = [])
    {frozen : Frozen φ} {blobs : Blobs} (hfrozen : freezeReach sha256 tree reach = .ok (frozen, blobs)) :
    Whole config readChild sha256 tree root frozen blobs := by
  rw [freezeReach] at hfrozen
  split at hfrozen
  · cases hfrozen
  next agents held hagents =>
  split at hfrozen
  · cases hfrozen
  next skills held' hskills =>
  split at hfrozen
  · cases hfrozen
  next executors held'' hexecutors =>
  split at hfrozen
  · cases hfrozen
  next knowledge kept hknowledge =>
  obtain ⟨rfl, rfl⟩ := Prod.mk.inj (Except.ok.inj hfrozen)
  have hempty : Sound sha256 ∅ := by
    intro hash bytes hbytes
    cases hbytes
  -- what the nodes interpret, as the walk gathered it
  have hagent : ∀ name, name ∈ reach.agents.sort (· ≤ ·) ↔
      Interpreted readChild root (fun _ => agentsOf config) name := by
    intro name
    rw [Finset.mem_sort, h.agents, h.interpreted_iff hdone]
  have hskill : ∀ name, name ∈ reach.skills.sort (· ≤ ·) ↔
      Interpreted readChild root (skillsOf config) name := by
    intro name
    rw [Finset.mem_sort, h.skills, h.interpreted_iff hdone]
  have hlayer : ∀ layer, layer ∈ reach.layers ↔ Interpreted readChild root (fun _ => layersOf) layer := by
    intro layer
    rw [h.layers, h.interpreted_iff hdone]
  -- each kind is frozen over the bytes of those before it, and none is let go
  obtain ⟨hsound, hfrozenAgents, -⟩ := freezeEach_frozenAs hempty hagent hagents
  obtain ⟨hsound', hfrozenSkills, hkept⟩ := freezeEach_frozenAs hsound hskill hskills
  obtain ⟨hsound'', hfrozenExecutors, hkept'⟩ :=
    freezeEach_frozenAs hsound' (mem_registered h hdone) hexecutors
  obtain ⟨-, hfrozenKnowledge, hkept''⟩ := freezeEach_frozenAs hsound'' hlayer hknowledge
  refine ⟨h.names_iff hdone, h.texts, ?_, ?_, hfrozenExecutors.kept hkept'', hfrozenKnowledge.layers⟩
  · exact hfrozenAgents.kept fun hash hheld => hkept'' hash (hkept' hash (hkept hash hheld))
  · exact hfrozenSkills.kept fun hash hheld => hkept'' hash (hkept' hash hheld)

end

section
variable {config : ConfigLayer} {φ ε : Type} {readChild : String → Except ε (φ × Workflow)}
variable {sha256 : Bytes → ContentHash} {tree : Tree ε} {fuel : Nat} {root : Workflow}

/-- What a freeze that ends well froze is what the walk gathered. -/
theorem freeze_walked {result : Frozen φ × Blobs}
    (h : freeze config readChild sha256 tree fuel root = some (.ok result)) :
    ∃ reach, Gathered config readChild root reach ∧ reach.uses = [] ∧
      freezeReach sha256 tree reach = .ok result := by
  rw [freeze] at h
  obtain ⟨walked, hwalk, hfrozen⟩ := Option.map_eq_some_iff.mp h
  cases walked with
  | error error => cases hfrozen
  | ok reach =>
    obtain ⟨hgathered, hdone⟩ := (walk_gathered (gathered_root root)).1 reach hwalk
    exact ⟨reach, hgathered, hdone, hfrozen⟩

/-- A reading that the run's nodes ask of the tree, and its error. -/
inductive Unread (config : ConfigLayer) (readChild : String → Except ε (φ × Workflow)) (tree : Tree ε)
    (root : Workflow) (error : ε) : Prop
  | child {name : String} (hnamed : Names readChild root name) (hread : readChild name = .error error)
  | agent {name : String} (hnamed : Interpreted readChild root (fun _ => agentsOf config) name)
      (hread : tree.agent name = .error error)
  | skill {name : String} (hnamed : Interpreted readChild root (skillsOf config) name)
      (hread : tree.skill name = .error error)
  | executor {name : String} (hnamed : Interpreted readChild root (fun _ => executorsOf) name)
      (hread : tree.executor name = some (.error error))
  | layer {layer : KnowledgeLayer} (hnamed : Interpreted readChild root (fun _ => layersOf) layer)
      (hread : tree.layer layer = .error error)

theorem oneFile_error {read : Except ε Bytes} {error : ε} :
    oneFile read = .error error ↔ read = .error error := by
  cases read with
  | error other => exact ⟨fun h => (by rw [Except.error.inj h]), fun h => (by rw [h]; rfl)⟩
  | ok bytes => exact ⟨fun h => (by cases h), fun h => (by cases h)⟩

/-- No freeze that is whole leaves a reading undone. -/
theorem Whole.read {frozen : Frozen φ} {blobs : Blobs}
    (h : Whole config readChild sha256 tree root frozen blobs) (error : ε) :
    ¬Unread config readChild tree root error := by
  -- a name frozen is one whose files were read
  have hread : ∀ {ν κ : Type} {files : ν → Except ε (List (κ × Bytes))} {names : ν → Prop}
      {entries : List (ν × List (κ × ContentHash))} {name : ν}, FrozenAs sha256 files names entries blobs →
      names name → files name ≠ .error error := by
    intro ν κ files names entries name hfrozen hname herror
    obtain ⟨entry, hentry, rfl⟩ := List.mem_map.mp ((hfrozen.names name).mpr hname)
    obtain ⟨read, hfiles, -⟩ := hfrozen.files entry hentry
    rw [herror] at hfiles
    cases hfiles
  intro hunread
  cases hunread with
  | child hnamed herror =>
    obtain ⟨entry, hentry, rfl⟩ := List.mem_map.mp ((h.workflows _).mpr hnamed)
    obtain ⟨workflow, hok⟩ := h.texts entry hentry
    rw [herror] at hok
    cases hok
  | agent hnamed herror => exact hread h.agents hnamed (oneFile_error.mpr herror)
  | skill hnamed herror => exact hread h.skills hnamed herror
  | executor hnamed herror =>
    refine hread h.executors ⟨hnamed, by rw [herror]; rfl⟩ ?_
    rw [executorFile, herror]
    rfl
  | layer hnamed herror =>
    obtain ⟨files, hok⟩ := h.knowledge.read _ hnamed
    rw [keyed, herror] at hok
    cases hok

/-- A freeze is refused by a reading that the nodes it walked ask for. -/
theorem freezeReach_unread {reach : Reach φ} (h : Gathered config readChild root reach)
    (hdone : reach.uses = []) {error : ε} (hrefused : freezeReach sha256 tree reach = .error error) :
    Unread config readChild tree root error := by
  rw [freezeReach] at hrefused
  split at hrefused
  · next other hagents =>
    obtain rfl := Except.error.inj hrefused
    obtain ⟨name, hname, herror⟩ := freezeEach_error hagents
    have hagent := (h.agents name).mp ((Finset.mem_sort _).mp hname)
    exact .agent ((h.interpreted_iff hdone).mp hagent) (oneFile_error.mp herror)
  split at hrefused
  · next other hskills =>
    obtain rfl := Except.error.inj hrefused
    obtain ⟨name, hname, herror⟩ := freezeEach_error hskills
    have hskill := (h.skills name).mp ((Finset.mem_sort _).mp hname)
    exact .skill ((h.interpreted_iff hdone).mp hskill) herror
  split at hrefused
  · next other hexecutors =>
    obtain rfl := Except.error.inj hrefused
    obtain ⟨name, hname, herror⟩ := freezeEach_error hexecutors
    obtain ⟨hinterpreted, hregistered⟩ := (mem_registered h hdone name).mp hname
    obtain ⟨read, hread⟩ := Option.isSome_iff_exists.mp hregistered
    rw [executorFile, hread] at herror
    exact .executor hinterpreted (by rw [hread, oneFile_error.mp herror])
  split at hrefused
  · next other hknowledge =>
    obtain rfl := Except.error.inj hrefused
    obtain ⟨layer, hlayer, herror⟩ := freezeEach_error hknowledge
    refine .layer ((h.interpreted_iff hdone).mp ((h.layers layer).mp hlayer)) ?_
    rw [keyed] at herror
    cases hread : tree.layer layer with
    | error other => rw [hread] at herror; rw [Except.error.inj herror]
    | ok files => rw [hread] at herror; cases herror
  · cases hrefused

/-- A freeze refused is refused by a reading the run's nodes ask for. -/
theorem freeze_unread {error : ε}
    (h : freeze config readChild sha256 tree fuel root = some (.error error)) :
    Unread config readChild tree root error := by
  rw [freeze] at h
  obtain ⟨walked, hwalk, hfrozen⟩ := Option.map_eq_some_iff.mp h
  have hwalked := @walk_gathered config φ ε readChild root fuel _ (gathered_root root)
  cases walked with
  | error other =>
    obtain rfl := Except.error.inj hfrozen
    obtain ⟨name, hnamed, herror⟩ := hwalked.2 other hwalk
    exact .child hnamed herror
  | ok reach =>
    obtain ⟨hgathered, hdone⟩ := hwalked.1 reach hwalk
    exact freezeReach_unread hgathered hdone hfrozen

/-- With fuel enough, a freeze ends. -/
theorem freeze_ends {whole : List String}
    (hwhole : ∀ name read, readChild name = .ok read → name ∈ whole)
    (hfuel : root.uses.length + Visit.pushes (nextUses readChild) whole [] < fuel) :
    freeze config readChild sha256 tree fuel root ≠ none := by
  intro hnone
  refine walk_ends hwhole ?_ (Option.map_eq_none_iff.mp hnone)
  rw [uses_visit, children_visit, List.length_append, List.length_reverse]
  exact hfuel

/-- **What a freeze holds is exactly what the run's nodes interpret.** -/
theorem freeze_whole {frozen : Frozen φ} {blobs : Blobs}
    (h : freeze config readChild sha256 tree fuel root = some (.ok (frozen, blobs))) :
    Whole config readChild sha256 tree root frozen blobs := by
  obtain ⟨reach, hgathered, hdone, hfrozen⟩ := freeze_walked h
  exact freezeReach_whole hgathered hdone hfrozen

/-- **A run is refused at birth exactly by a reading its nodes ask for**, and with that reading's
    error; a freeze always ends. -/
theorem freeze_refuses {whole : List String}
    (hwhole : ∀ name read, readChild name = .ok read → name ∈ whole)
    (hfuel : root.uses.length + Visit.pushes (nextUses readChild) whole [] < fuel) :
    freeze config readChild sha256 tree fuel root ≠ none ∧
    (∀ error, freeze config readChild sha256 tree fuel root = some (.error error) →
      Unread config readChild tree root error) ∧
    ((∃ error, freeze config readChild sha256 tree fuel root = some (.error error)) ↔
      ∃ error, Unread config readChild tree root error) := by
  have hends := @freeze_ends config φ ε readChild sha256 tree fuel root whole hwhole hfuel
  refine ⟨hends, fun error => freeze_unread, fun ⟨error, hrefused⟩ => ⟨error, freeze_unread hrefused⟩,
    fun ⟨error, hunread⟩ => ?_⟩
  obtain ⟨result, hresult⟩ := Option.ne_none_iff_exists'.mp hends
  cases result with
  | error other => exact ⟨other, hresult⟩
  | ok frozen =>
    obtain ⟨reach, hgathered, hdone, hfrozen⟩ := freeze_walked hresult
    exact absurd hunread ((freezeReach_whole hgathered hdone hfrozen).read error)

end

/-! ## A child that names itself -/

/-- A workflow that runs as an agent, and names itself. -/
def selfNaming : Workflow where
  nodes := [{ kind := .prompt, agent := some "coder" }, { kind := .workflow "build" }]

def buildOnly (name : String) : Except Unit (Unit × Workflow) :=
  if name = "build" then .ok ((), selfNaming) else .error ()

/-- A tree where each name stands for one file, but an agent for what `agent` reads. -/
def treeOf (agent : Except Unit Bytes) : Tree Unit where
  agent := fun _ => agent
  skill := fun _ => .ok [("SKILL.md", [1])]
  executor := fun _ => none
  layer := fun _ => .ok []

/-- Each byte of a name, as its digits. -/
def byName (bytes : Bytes) : ContentHash := String.intercalate "." (bytes.map fun byte => byte.toNat.repr)

theorem buildOnly_whole : ∀ name read, buildOnly name = .ok read → name ∈ ["build"] := by
  intro name read hread
  rw [buildOnly] at hread
  split at hread
  · next hname => rw [hname]; exact List.mem_singleton.mpr rfl
  · cases hread

/-- The only child the workflow's nodes name is itself. -/
theorem names_build {name : String} (h : Names buildOnly selfNaming name) : name = "build" := by
  obtain ⟨workflow, hborn, hname⟩ := h
  have huses : workflow = selfNaming := by
    cases hborn with
    | root => rfl
    | @child from_ _ child name hfrom hname hread =>
      rw [buildOnly] at hread
      split at hread
      · exact (Prod.mk.inj (Except.ok.inj hread)).2.symm
      · cases hread
  rw [huses] at hname
  exact List.mem_singleton.mp hname

/-- A workflow that names itself is frozen once. -/
theorem freeze_whole_selfNaming : ∃ frozen blobs,
    freeze {} buildOnly byName (treeOf (.ok [])) 4 selfNaming = some (.ok (frozen, blobs)) ∧
    Whole {} buildOnly byName (treeOf (.ok [])) selfNaming frozen blobs := by
  have hends := @freeze_ends {} Unit Unit buildOnly byName (treeOf (.ok [])) 4 selfNaming ["build"]
    buildOnly_whole (by decide)
  obtain ⟨result, hresult⟩ := Option.ne_none_iff_exists'.mp hends
  cases result with
  | ok frozen => exact ⟨frozen.1, frozen.2, hresult, freeze_whole hresult⟩
  | error error =>
    exfalso
    cases freeze_unread hresult with
    | child hnamed hread =>
      rw [names_build hnamed, buildOnly, if_pos rfl] at hread
      cases hread
    | agent hnamed hread => cases hread
    | skill hnamed hread => cases hread
    | executor hnamed hread => cases hread
    | layer hnamed hread => cases hread

/-- An agent that no file defines refuses the run. -/
theorem freeze_refuses_selfNaming : ∃ error,
    freeze {} buildOnly byName (treeOf (.error ())) 4 selfNaming = some (.error error) := by
  refine (@freeze_refuses {} Unit Unit buildOnly byName (treeOf (.error ())) 4
    selfNaming ["build"] buildOnly_whole (by decide)).2.2.mpr ⟨(), ?_⟩
  exact @Unread.agent _ _ _ _ _ _ _ "coder"
    ⟨selfNaming, .root, _, List.mem_cons_self, List.mem_singleton.mpr rfl⟩ rfl

end Yunta.Freeze
