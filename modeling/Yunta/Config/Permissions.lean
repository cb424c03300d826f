/-
  `permissions:` — the one ceiling in the config: the org layer bounds, lower layers only narrow.

  1. **The layers** — `PermissionsConfig` with its groups, and `mergePermissions`, which merges a
     layer under the ceiling above it.  `ConfigLayer.mergeLayers` folds the layers, the highest
     first.

  2. **What reads them** — `commandViolation` checks one rendered command against the merged
     model, `enforcePublisherAllowed` one pack's publisher.

  3. **Each group on its own** — merging acts group by group, so the merged group is the fold of
     the layers' groups (`mergeLayers_commands` and its siblings).

  4. **Main result** — `mergeLayers_narrows`: merging only narrows exactly when the non-empty allow
     lists of the layers share an entry.  Two disjoint ones intersect to the empty list, and an
     empty list allows anything.

  5. **What a pattern means** — `patterns_spec`: the whole command is the pattern's literal pieces in
     order, with any text for each `*`, and a command some deny pattern matches is refused whatever
     the allow list says.
-/
import Yunta.Events.Basics
import Yunta.Lib.Ceiling
import Yunta.Lib.Utf8
import Yunta.Lib.Wildcard

set_option linter.unusedVariables false

namespace Yunta

/-! ## The layers -/

abbrev Publisher := String

/-- How a loop node treats an agent's request to widen its scope. -/
inductive ScopeExpansionMode where
  | rules | ask | deny
  deriving DecidableEq, Repr

/-- A higher number never grants what a lower one would refuse. -/
def ScopeExpansionMode.strictness : ScopeExpansionMode → Nat
  | .rules => 0
  | .ask => 1
  | .deny => 2

/-- The most permissive mode a permissions layer allows a node to declare. -/
structure ScopeCeiling where
  mode : ScopeExpansionMode
  deriving DecidableEq, Repr

/-- The stricter of two ceilings, as the layered merge keeps it. -/
def ScopeCeiling.stricter (self other : ScopeCeiling) : ScopeCeiling :=
  if self.mode.strictness ≥ other.mode.strictness then self else other

structure ScopeExpansionPermissions where
  maxMode : ScopeCeiling
  deriving DecidableEq, Repr

/-- `permissions.paths`: what no node and no task of any run may write. -/
structure PathPermissions where
  deny : List ScopeGlob := []
  deriving DecidableEq, Repr

/-- `permissions.commands`.  An empty `allow` is denylist mode, a non-empty one a strict
    allowlist. -/
structure CommandPermissions where
  deny : List String := []
  allow : List String := []
  deriving DecidableEq, Repr

inductive PackExecutorPolicy where
  | allow | prompt | deny
  deriving DecidableEq, Repr

def PackExecutorPolicy.strictness : PackExecutorPolicy → Nat
  | .allow => 0
  | .prompt => 1
  | .deny => 2

/-- `permissions.packs.publishers`: an empty `allow` accepts every publisher. -/
structure PublisherPermissions where
  allow : List Publisher := []
  deriving DecidableEq, Repr

structure PackPermissions where
  executors : Option PackExecutorPolicy := none
  publishers : Option PublisherPermissions := none
  deriving DecidableEq, Repr

/-- `permissions.network`: whether a session's commands may reach the network by default. -/
structure NetworkPermissions where
  default : Bool
  deriving DecidableEq, Repr

structure PermissionsConfig where
  commands : Option CommandPermissions := none
  packs : Option PackPermissions := none
  network : Option NetworkPermissions := none
  scopeExpansion : Option ScopeExpansionPermissions := none
  paths : Option PathPermissions := none
  deriving DecidableEq, Repr

/-- One layer of the config, as far as permissions go. -/
structure ConfigLayer where
  permissions : Option PermissionsConfig := none
  deriving DecidableEq, Repr

/-! ## Merging -/

/-- One group of `permissions` across both layers: a group only one layer names stands as
    written, and a group both name merges by `both`. -/
def mergeGroup {α : Type} (ceiling lower : Option α) (both : α → α → α) : Option α :=
  match ceiling, lower with
  | some c, some l => some (both c l)
  | c, l => c.or l

/-- Denies union, and the ceiling's non-empty allow bounds the lower layer's. -/
def mergeCommands (ceiling lower : CommandPermissions) : CommandPermissions where
  deny := Ceiling.union ceiling.deny lower.deny
  allow := Ceiling.bound ceiling.allow lower.allow

def mergePublishers (ceiling lower : PublisherPermissions) : PublisherPermissions where
  allow := Ceiling.bound ceiling.allow lower.allow

/-- The strictest executor policy wins, and publishers intersect. -/
def mergePacks (ceiling lower : PackPermissions) : PackPermissions where
  executors := mergeGroup ceiling.executors lower.executors fun a b =>
    if a.strictness ≥ b.strictness then a else b
  publishers := mergeGroup ceiling.publishers lower.publishers mergePublishers

/-- The union of both layers' denies, so a lower layer only adds. -/
def mergePaths (ceiling lower : PathPermissions) : PathPermissions where
  deny := Ceiling.union ceiling.deny lower.deny

/-- The ceiling merge: the most restrictive combination of both layers. -/
def mergePermissions (ceiling lower : Option PermissionsConfig) : Option PermissionsConfig :=
  match ceiling, lower with
  | none, none => none
  | some c, none => some c
  | none, some l => some l
  | some c, some l => some {
      commands := mergeGroup c.commands l.commands mergeCommands
      packs := mergeGroup c.packs l.packs mergePacks
      -- `false` is the narrower value: a ceiling that turned the default off stays off
      network := mergeGroup c.network l.network fun c l => { default := c.default && l.default }
      scopeExpansion := mergeGroup c.scopeExpansion l.scopeExpansion fun c l =>
        { maxMode := c.maxMode.stricter l.maxMode }
      paths := mergeGroup c.paths l.paths mergePaths }

def ConfigLayer.merge (base moreSpecific : ConfigLayer) : ConfigLayer where
  permissions := mergePermissions base.permissions moreSpecific.permissions

/-- The layers folded, the highest ceiling first. -/
def ConfigLayer.mergeLayers (layers : List ConfigLayer) : ConfigLayer :=
  layers.foldl ConfigLayer.merge {}

/-! ## What reads them -/

/-- The list of `permissions.commands` that refused a command. -/
inductive DeniedBy where
  | deny (pattern : String)
  | allow
  deriving DecidableEq, Repr

structure DeniedCommand where
  command : String
  list : DeniedBy
  deriving DecidableEq, Repr

/-- Full-string glob over bytes: `*` matches any run, newlines included, and every other byte is
    literal. -/
def globMatch (pattern text : String) : Bool :=
  Wildcard.scan 42 pattern.toUTF8.data.toList text.toUTF8.data.toList none

/-- The match it decides: `*` any run of bytes, both ends anchored. -/
theorem globMatch_iff (pattern text : String) :
    globMatch pattern text = true ↔
      Wildcard.Matches 42 pattern.toUTF8.data.toList text.toUTF8.data.toList :=
  Wildcard.scan_iff 42 _ _

/-- One rendered command against the merged permissions: `none` where it may run. -/
def commandViolation (command : String) (permissions : Option PermissionsConfig) :
    Option DeniedCommand :=
  match permissions.bind (·.commands) with
  | none => none
  | some commands =>
    match commands.deny.find? (globMatch · command) with
    | some pattern => some { command, list := .deny pattern }
    | none =>
      if !commands.allow.isEmpty && !commands.allow.any (globMatch · command) then
        some { command, list := .allow }
      else none

/-- The merged `permissions.packs` verdicts, with the layers that declare each restriction. -/
structure PackPolicy where
  publishersAllow : Option (List Publisher × List String)
  executors : PackExecutorPolicy
  executorsDeclaredBy : List String
  deriving DecidableEq, Repr

/-- The packs group a layer names. -/
def ConfigLayer.packs (layer : ConfigLayer) : Option PackPermissions :=
  layer.permissions.bind (·.packs)

/-- The publishers a layer lists; none where it says nothing of them. -/
def ConfigLayer.publisherAllow (layer : ConfigLayer) : List Publisher :=
  (layer.packs.bind (·.publishers)).elim [] (·.allow)

def ConfigLayer.executors (layer : ConfigLayer) : Option PackExecutorPolicy :=
  layer.packs.bind (·.executors)

def loadPackPolicy (layers : List (String × ConfigLayer)) : PackPolicy :=
  let merged := ConfigLayer.mergeLayers (layers.map Prod.snd)
  let executors := merged.executors.getD .prompt
  { publishersAllow :=
      if merged.publisherAllow.isEmpty then none
      else some (merged.publisherAllow,
        (layers.filter fun layer => !layer.2.publisherAllow.isEmpty).map Prod.fst)
    executors
    executorsDeclaredBy :=
      (layers.filter fun layer => layer.2.executors = some executors).map Prod.fst }

/-- What the refusal of a publisher names: the publisher, the layers that list others, and the
    publishers they allow. -/
structure PublisherRefused where
  publisher : Publisher
  declaredBy : List String
  allowed : List Publisher
  deriving DecidableEq, Repr

/-- The publisher allow-list gate. -/
def enforcePublisherAllowed (policy : PackPolicy) (publisher : Publisher) :
    Except PublisherRefused Unit :=
  match policy.publishersAllow with
  | none => .ok ()
  | some (allow, declaredBy) =>
    if allow.any (· == publisher) then .ok ()
    else .error { publisher, declaredBy, allowed := allow }

/-! ## Each group on its own -/

namespace ConfigLayer

def commandDeny (layer : ConfigLayer) : List String :=
  (layer.permissions.bind (·.commands)).elim [] (·.deny)

def commandAllow (layer : ConfigLayer) : List String :=
  (layer.permissions.bind (·.commands)).elim [] (·.allow)

def pathDeny (layer : ConfigLayer) : List ScopeGlob :=
  (layer.permissions.bind (·.paths)).elim [] (·.deny)

def network (layer : ConfigLayer) : Option NetworkPermissions :=
  layer.permissions.bind (·.network)

def scopeExpansion (layer : ConfigLayer) : Option ScopeExpansionPermissions :=
  layer.permissions.bind (·.scopeExpansion)

/-- What the merge does to one group of `permissions`, the rest aside. -/
theorem merge_group {γ : Type} (get : PermissionsConfig → Option γ) (both : γ → γ → γ)
    (h : ∀ c l, (mergePermissions (some c) (some l)).bind get = mergeGroup (get c) (get l) both)
    (base more : ConfigLayer) :
    (base.merge more).permissions.bind get =
      mergeGroup (base.permissions.bind get) (more.permissions.bind get) both := by
  obtain ⟨base⟩ := base
  obtain ⟨more⟩ := more
  cases base with
  | none => cases more <;> simp [merge, mergePermissions, mergeGroup]
  | some c =>
    cases more with
    | none => cases hc : get c <;> simp [merge, mergePermissions, mergeGroup, hc]
    | some l => exact h c l

theorem mergeLayers_append (layers : List ConfigLayer) (layer : ConfigLayer) :
    mergeLayers (layers ++ [layer]) = (mergeLayers layers).merge layer := by
  simp [mergeLayers, List.foldl_append]

/-- A reading that each merge takes by `step` is folded by `step`. -/
theorem mergeLayers_read {δ : Type} (read : ConfigLayer → δ) (step : δ → δ → δ)
    (h : ∀ base more : ConfigLayer, read (base.merge more) = step (read base) (read more))
    (layers : List ConfigLayer) :
    read (mergeLayers layers) = (layers.map read).foldl step (read {}) := by
  rw [mergeLayers, List.foldl_map]
  exact (List.foldl_hom read fun base more => (h base more).symm).symm

/-- A list that each merge adds to holds what every layer put in it. -/
theorem mem_mergeLayers {β : Type} (read : ConfigLayer → List β) (hfresh : read {} = [])
    (h : ∀ (base more : ConfigLayer) (x : β),
      x ∈ read (base.merge more) ↔ x ∈ read base ∨ x ∈ read more)
    (layers : List ConfigLayer) (x : β) :
    x ∈ read (mergeLayers layers) ↔ ∃ layer ∈ layers, x ∈ read layer := by
  induction layers using List.reverseRecOn with
  | nil => simp [mergeLayers, hfresh]
  | append_singleton layers layer ih =>
    rw [mergeLayers_append, h, ih]
    simp [or_and_right, exists_or]

/-- A value whose stricter one each merge keeps ends as the strictest of all. -/
theorem mergeLayers_strictest {γ : Type} (rank : γ → Nat) (read : ConfigLayer → Option γ)
    (hfresh : read {} = none)
    (h : ∀ base more : ConfigLayer,
      read (base.merge more) = Ceiling.strictest rank (read base) (read more))
    (layers : List ConfigLayer) :
    Ceiling.IsStrictest rank (layers.map read) (read (mergeLayers layers)) := by
  induction layers using List.reverseRecOn with
  | nil =>
    rw [mergeLayers, List.foldl_nil, hfresh]
    exact fun value hvalue => absurd hvalue List.not_mem_nil
  | append_singleton layers layer ih =>
    rw [mergeLayers_append, h, List.map_append]
    exact Ceiling.strictest_isStrictest rank ih (read layer)

theorem merge_commands (base more : ConfigLayer) :
    (base.merge more).permissions.bind (·.commands) =
      mergeGroup (base.permissions.bind (·.commands)) (more.permissions.bind (·.commands))
        mergeCommands :=
  merge_group _ _ (fun _ _ => rfl) base more

theorem merge_packs (base more : ConfigLayer) :
    (base.merge more).packs = mergeGroup base.packs more.packs mergePacks :=
  merge_group _ _ (fun _ _ => rfl) base more

theorem mergeLayers_commandAllow (layers : List ConfigLayer) :
    (mergeLayers layers).commandAllow = Ceiling.bounds (layers.map commandAllow) := by
  refine mergeLayers_read commandAllow Ceiling.bound (fun base more => ?_) layers
  rw [commandAllow, merge_commands, commandAllow, commandAllow]
  cases base.permissions.bind (·.commands) <;> cases more.permissions.bind (·.commands) <;>
    simp [mergeGroup, mergeCommands]

theorem mergeLayers_publisherAllow (layers : List ConfigLayer) :
    (mergeLayers layers).publisherAllow = Ceiling.bounds (layers.map publisherAllow) := by
  refine mergeLayers_read publisherAllow Ceiling.bound (fun base more => ?_) layers
  rw [publisherAllow, merge_packs, publisherAllow, publisherAllow]
  rcases base.packs with _ | ⟨_, _ | _⟩ <;> rcases more.packs with _ | ⟨_, _ | _⟩ <;>
    simp [mergeGroup, mergePacks, mergePublishers]

theorem mem_mergeLayers_commandDeny (layers : List ConfigLayer) (pattern : String) :
    pattern ∈ (mergeLayers layers).commandDeny ↔ ∃ layer ∈ layers, pattern ∈ layer.commandDeny := by
  refine mem_mergeLayers commandDeny rfl (fun base more x => ?_) layers pattern
  rw [commandDeny, merge_commands, commandDeny, commandDeny]
  cases base.permissions.bind (·.commands) <;> cases more.permissions.bind (·.commands) <;>
    simp [mergeGroup, mergeCommands, Ceiling.mem_union]

theorem mem_mergeLayers_pathDeny (layers : List ConfigLayer) (glob : ScopeGlob) :
    glob ∈ (mergeLayers layers).pathDeny ↔ ∃ layer ∈ layers, glob ∈ layer.pathDeny := by
  refine mem_mergeLayers pathDeny rfl (fun base more x => ?_) layers glob
  rw [pathDeny, merge_group (·.paths) mergePaths (fun _ _ => rfl), pathDeny, pathDeny]
  cases base.permissions.bind (·.paths) <;> cases more.permissions.bind (·.paths) <;>
    simp [mergeGroup, mergePaths, Ceiling.mem_union]

theorem mergeLayers_executors (layers : List ConfigLayer) :
    Ceiling.IsStrictest PackExecutorPolicy.strictness (layers.map executors)
      (mergeLayers layers).executors := by
  refine mergeLayers_strictest _ executors rfl (fun base more => ?_) layers
  rw [executors, merge_packs, executors, executors]
  rcases base.packs with _ | ⟨_ | _, _⟩ <;> rcases more.packs with _ | ⟨_ | _, _⟩ <;> rfl

/-- The network default, the closed one being the stricter. -/
def networkStrictness (network : NetworkPermissions) : Nat := if network.default then 0 else 1

theorem mergeLayers_network (layers : List ConfigLayer) :
    Ceiling.IsStrictest networkStrictness (layers.map network) (mergeLayers layers).network := by
  refine mergeLayers_strictest _ network rfl (fun base more => ?_) layers
  rw [network, merge_group (·.network) (fun c l => { default := c.default && l.default })
    (fun _ _ => rfl), network, network]
  rcases base.permissions.bind (·.network) with _ | ⟨_ | _⟩ <;>
    rcases more.permissions.bind (·.network) with _ | ⟨_ | _⟩ <;> rfl

def scopeStrictness (scope : ScopeExpansionPermissions) : Nat := scope.maxMode.mode.strictness

theorem mergeLayers_scopeExpansion (layers : List ConfigLayer) :
    Ceiling.IsStrictest scopeStrictness (layers.map scopeExpansion)
      (mergeLayers layers).scopeExpansion := by
  refine mergeLayers_strictest _ scopeExpansion rfl (fun base more => ?_) layers
  rw [scopeExpansion, merge_group (·.scopeExpansion)
    (fun c l => { maxMode := c.maxMode.stricter l.maxMode }) (fun _ _ => rfl),
    scopeExpansion, scopeExpansion]
  rcases base.permissions.bind (·.scopeExpansion) with _ | ⟨⟨_ | _ | _⟩⟩ <;>
    rcases more.permissions.bind (·.scopeExpansion) with _ | ⟨⟨_ | _ | _⟩⟩ <;> rfl

end ConfigLayer

/-! ## Main result -/

/-- A layer's permissions let `command` run. -/
def ConfigLayer.AdmitsCommand (layer : ConfigLayer) (command : String) : Prop :=
  commandViolation command layer.permissions = none

instance (layer : ConfigLayer) (command : String) : Decidable (layer.AdmitsCommand command) :=
  inferInstanceAs (Decidable (_ = _))

/-- The policy of these layers takes packs of `publisher`. -/
def AdmitsPublisher (layers : List (String × ConfigLayer)) (publisher : Publisher) : Prop :=
  enforcePublisherAllowed (loadPackPolicy layers) publisher = .ok ()

open ConfigLayer

/-- **Merging only narrows.**  What the merged permissions admit, each layer admits on its own; no
    layer's non-empty allow list is widened; every denial stands; the strictest setting wins. -/
structure MergeNarrows (layers : List (String × ConfigLayer)) : Prop where
  commands : ∀ command, (mergeLayers (layers.map Prod.snd)).AdmitsCommand command →
    ∀ layer ∈ layers, layer.2.AdmitsCommand command
  publishers : ∀ publisher, AdmitsPublisher layers publisher →
    ∀ layer ∈ layers, AdmitsPublisher [layer] publisher
  commandAllow : ∀ layer ∈ layers, layer.2.commandAllow ≠ [] →
    Ceiling.Tight (mergeLayers (layers.map Prod.snd)).commandAllow layer.2.commandAllow
  publisherAllow : ∀ layer ∈ layers, layer.2.publisherAllow ≠ [] →
    Ceiling.Tight (mergeLayers (layers.map Prod.snd)).publisherAllow layer.2.publisherAllow
  commandDeny : ∀ layer ∈ layers, ∀ pattern ∈ layer.2.commandDeny,
    pattern ∈ (mergeLayers (layers.map Prod.snd)).commandDeny
  pathDeny : ∀ layer ∈ layers, ∀ glob ∈ layer.2.pathDeny,
    glob ∈ (mergeLayers (layers.map Prod.snd)).pathDeny
  executors : Ceiling.IsStrictest PackExecutorPolicy.strictness
    (layers.map (·.2.executors)) (mergeLayers (layers.map Prod.snd)).executors
  network : Ceiling.IsStrictest networkStrictness
    (layers.map (·.2.network)) (mergeLayers (layers.map Prod.snd)).network
  scopeExpansion : Ceiling.IsStrictest scopeStrictness
    (layers.map (·.2.scopeExpansion)) (mergeLayers (layers.map Prod.snd)).scopeExpansion

/-- The layers that list commands agree on a pattern, and those that list publishers on one. -/
def AllowListsMeet (layers : List (String × ConfigLayer)) : Prop :=
  Ceiling.Meet (layers.map (·.2.commandAllow)) ∧ Ceiling.Meet (layers.map (·.2.publisherAllow))

theorem admitsCommand_iff (layer : ConfigLayer) (command : String) :
    layer.AdmitsCommand command ↔
      (∀ pattern ∈ layer.commandDeny, globMatch pattern command = false) ∧
      (layer.commandAllow = [] ∨ ∃ pattern ∈ layer.commandAllow, globMatch pattern command) := by
  unfold AdmitsCommand commandViolation commandDeny commandAllow
  cases layer.permissions.bind (·.commands) with
  | none => simp
  | some commands =>
    simp only [Option.elim_some]
    cases hfind : commands.deny.find? (globMatch · command) with
    | some pattern =>
      have hmem := List.mem_of_find?_eq_some hfind
      have hmatch := List.find?_some hfind
      simp only [reduceCtorEq, false_iff]
      intro h
      simp [h.1 pattern hmem] at hmatch
    | none =>
      have hnone : ∀ pattern ∈ commands.deny, globMatch pattern command = false := by
        simpa using hfind
      by_cases hempty : commands.allow = []
      · simpa [hempty] using hnone
      · simp [hempty, and_iff_right hnone]

theorem enforcePublisherAllowed_iff (layers : List (String × ConfigLayer)) (publisher : Publisher) :
    AdmitsPublisher layers publisher ↔
      (mergeLayers (layers.map Prod.snd)).publisherAllow = [] ∨
      publisher ∈ (mergeLayers (layers.map Prod.snd)).publisherAllow := by
  simp only [AdmitsPublisher, enforcePublisherAllowed, loadPackPolicy]
  generalize (mergeLayers (layers.map Prod.snd)).publisherAllow = allow
  by_cases hempty : allow = []
  · simp [hempty]
  · by_cases hmem : publisher ∈ allow <;> simp [hempty, hmem]

theorem mergeLayers_single (layer : ConfigLayer) : mergeLayers [layer] = layer := by
  obtain ⟨permissions⟩ := layer
  cases permissions <;> rfl

/-- **When merging only narrows.**  Denials, paths, executors, network and scope always do; allow
    lists do exactly when those that are not empty share an entry. -/
theorem mergeLayers_narrows (layers : List (String × ConfigLayer)) :
    MergeNarrows layers ↔ AllowListsMeet layers := by
  have hcommand := Ceiling.bounds_tight_iff (layers.map (·.2.commandAllow))
  have hpublisher := Ceiling.bounds_tight_iff (layers.map (·.2.publisherAllow))
  have hmapc : (layers.map Prod.snd).map commandAllow = layers.map (·.2.commandAllow) := by
    simp
  have hmapp : (layers.map Prod.snd).map publisherAllow = layers.map (·.2.publisherAllow) := by
    simp
  rw [← hmapc, ← mergeLayers_commandAllow, hmapc] at hcommand
  rw [← hmapp, ← mergeLayers_publisherAllow, hmapp] at hpublisher
  constructor
  · intro h
    refine ⟨hcommand.mp ?_, hpublisher.mp ?_⟩
    · intro list hlist
      obtain ⟨layer, hlayer, rfl⟩ := List.mem_map.mp hlist
      exact h.commandAllow layer hlayer
    · intro list hlist
      obtain ⟨layer, hlayer, rfl⟩ := List.mem_map.mp hlist
      exact h.publisherAllow layer hlayer
  · rintro ⟨hmeetc, hmeetp⟩
    have htightc := hcommand.mpr hmeetc
    have htightp := hpublisher.mpr hmeetp
    have hdeny : ∀ layer ∈ layers, ∀ pattern ∈ layer.2.commandDeny,
        pattern ∈ (mergeLayers (layers.map Prod.snd)).commandDeny := fun layer hlayer pattern hp =>
      (mem_mergeLayers_commandDeny _ _).mpr ⟨layer.2, List.mem_map_of_mem hlayer, hp⟩
    refine
      { commands := ?_, publishers := ?_
        commandAllow := fun layer hlayer => htightc _ (List.mem_map.mpr ⟨layer, hlayer, rfl⟩)
        publisherAllow := fun layer hlayer => htightp _ (List.mem_map.mpr ⟨layer, hlayer, rfl⟩)
        commandDeny := hdeny
        pathDeny := fun layer hlayer glob hglob =>
          (mem_mergeLayers_pathDeny _ _).mpr ⟨layer.2, List.mem_map_of_mem hlayer, hglob⟩
        executors := by
          simpa [Function.comp_def] using mergeLayers_executors (layers.map Prod.snd)
        network := by
          simpa [Function.comp_def] using mergeLayers_network (layers.map Prod.snd)
        scopeExpansion := by
          simpa [Function.comp_def] using mergeLayers_scopeExpansion (layers.map Prod.snd) }
    · intro command hadmits layer hlayer
      obtain ⟨hnodeny, hallow⟩ := (admitsCommand_iff _ _).mp hadmits
      refine (admitsCommand_iff _ _).mpr ⟨fun p hp => hnodeny p (hdeny layer hlayer p hp), ?_⟩
      by_cases hempty : layer.2.commandAllow = []
      · exact .inl hempty
      · obtain ⟨hne, hinside⟩ := htightc _ (List.mem_map.mpr ⟨layer, hlayer, rfl⟩) hempty
        obtain ⟨pattern, hp, hmatch⟩ := hallow.resolve_left hne
        exact .inr ⟨pattern, hinside pattern hp, hmatch⟩
    · intro publisher hadmits layer hlayer
      have hallow := (enforcePublisherAllowed_iff _ _).mp hadmits
      refine (enforcePublisherAllowed_iff _ _).mpr ?_
      rw [List.map_singleton, mergeLayers_single]
      by_cases hempty : layer.2.publisherAllow = []
      · exact .inl hempty
      · obtain ⟨hne, hinside⟩ := htightp _ (List.mem_map.mpr ⟨layer, hlayer, rfl⟩) hempty
        exact .inr (hinside publisher (hallow.resolve_left hne))

/-- Two layers that each allow one tool. -/
def disjointLayers : List (String × ConfigLayer) :=
  [("org", { permissions := some { commands := some { allow := ["git *"] } } }),
   ("repo", { permissions := some { commands := some { allow := ["cargo *"] } } })]

/-- Together they allow anything: the merged model runs a command that neither layer allows. -/
theorem not_mergeLayers_narrows :
    (mergeLayers (disjointLayers.map Prod.snd)).AdmitsCommand "rm -rf /" ∧
    (∀ layer ∈ disjointLayers, ¬ layer.2.AdmitsCommand "rm -rf /") ∧
    ¬ MergeNarrows disjointLayers := by
  have hgit : globMatch "git *" "rm -rf /" = false := by
    show Wildcard.scan 42 [103, 105, 116, 32, 42] [114, 109, 32, 45, 114, 102, 32, 47] none = false
    simp [Wildcard.scan]
  have hcargo : globMatch "cargo *" "rm -rf /" = false := by
    show Wildcard.scan 42 [99, 97, 114, 103, 111, 32, 42] [114, 109, 32, 45, 114, 102, 32, 47] none
      = false
    simp [Wildcard.scan]
  have hmerged : (mergeLayers (disjointLayers.map Prod.snd)).AdmitsCommand "rm -rf /" := by
    decide
  have hlayers : ∀ layer ∈ disjointLayers, ¬ layer.2.AdmitsCommand "rm -rf /" := by
    intro layer hlayer
    rw [admitsCommand_iff]
    rcases List.mem_cons.mp hlayer with rfl | hlayer
    · simp [commandAllow, hgit]
    · rw [List.mem_singleton.mp hlayer]
      simp [commandAllow, hcargo]
  exact ⟨hmerged, hlayers, fun h =>
    hlayers _ List.mem_cons_self (h.commands _ hmerged _ List.mem_cons_self)⟩

/-! ## What a pattern means -/

/-- Matching bytes is matching characters: a `*` never cuts one in a way that shows. -/
theorem globMatch_chars (pattern text : String) :
    globMatch pattern text = true ↔ Wildcard.Matches '*' pattern.toList text.toList := by
  have hstar : Utf8.code.word '*' = [42] := by decide
  have hbytes : ∀ s : String, s.toUTF8.data.toList = Utf8.code.encode s.toList :=
    Utf8.utf8_eq_encode
  rw [globMatch_iff, hbytes, hbytes]
  exact Wildcard.matches_encode hstar

/-- **A denied command is refused** whatever the allow list says. -/
theorem commandViolation_deny {command : String} {permissions : PermissionsConfig}
    {commands : CommandPermissions} (hcommands : permissions.commands = some commands)
    {pattern : String} (hdeny : pattern ∈ commands.deny) (hmatch : globMatch pattern command = true) :
    ∃ denied ∈ commands.deny, commandViolation command (some permissions) =
      some { command, list := .deny denied } := by
  have hsome : (commands.deny.find? (globMatch · command)).isSome = true :=
    List.find?_isSome.mpr ⟨pattern, hdeny, hmatch⟩
  obtain ⟨denied, hfind⟩ := Option.isSome_iff_exists.mp hsome
  refine ⟨denied, List.mem_of_find?_eq_some hfind, ?_⟩
  simp only [commandViolation, Option.bind_some, hcommands, hfind]

/-- **Command patterns mean what a star means.** -/
theorem patterns_spec :
    (∀ pattern text : String, globMatch pattern text = true ↔
      ∃ gaps : List (List Char), gaps.length + 1 = (pattern.toList.splitOn '*').length ∧
        text.toList = Wildcard.weave (pattern.toList.splitOn '*') gaps) ∧
    ∀ (command : String) (permissions : PermissionsConfig) (commands : CommandPermissions),
      permissions.commands = some commands →
      ∀ pattern ∈ commands.deny, globMatch pattern command = true →
        ∃ denied ∈ commands.deny, commandViolation command (some permissions) =
          some { command, list := .deny denied } := by
  refine ⟨fun pattern text => ?_, fun command permissions commands hcommands pattern hdeny hmatch => ?_⟩
  · rw [globMatch_chars, Wildcard.matches_iff_weave]
  · exact commandViolation_deny hcommands hdeny hmatch

theorem patterns_spec_sudo :
    ∃ denied ∈ ["rm *", "sudo *"],
      commandViolation "sudo ls"
        (some { commands := some { allow := ["sudo ls"], deny := ["rm *", "sudo *"] } }) =
          some { command := "sudo ls", list := .deny denied } := by
  have hmatch : globMatch "sudo *" "sudo ls" = true :=
    (patterns_spec.1 _ _).mpr ⟨[['l', 's']], by decide, by decide⟩
  exact patterns_spec.2 "sudo ls"
    { commands := some { allow := ["sudo ls"], deny := ["rm *", "sudo *"] } }
    { allow := ["sudo ls"], deny := ["rm *", "sudo *"] } rfl "sudo *"
    (List.mem_cons_of_mem _ List.mem_cons_self) hmatch

end Yunta
