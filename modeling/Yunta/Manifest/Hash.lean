/-
  The hash of a run's manifest, over the manifests it tells apart.

  1. **The hash** — `contentHash` digests the canonical rendering of what a value serializes to, in
     whatever order its maps are iterated.

  2. **Which manifests share a hash** — `manifestHash_eq`: those that are the same once every
     mapping is sorted, the ones that keep their order included.

  3. **Main result** — `manifest_hash_tells`: two manifests that read differently have different
     hashes exactly where they differ in more than the order of a mapping that keeps one, and a
     manifest's own hash depends on no order of iteration.
-/
import Yunta.Manifest.Document

set_option linter.unusedVariables false

namespace Yunta.Frozen

open Json

/-! ## The hash -/

section

variable (sha256 : String → String)

/-- The digest of the canonical rendering of a value, its maps iterated in `order`. -/
def contentHash (order : Iteration) (document : Document) : String :=
  sha256 (.ofList (canonical (iterated (fun _ => true) order [] document)))

/-- The hash of the whole frozen manifest. -/
def Manifest.manifestHash (order : Iteration) (manifest : Manifest) : String :=
  contentHash sha256 order manifest.document

/-- **The hash tells two manifests apart**: a run that can read them differently finds different
    hashes, in whatever order their maps are iterated. -/
def Tells (manifest manifest' : Manifest) : Prop :=
  ∀ order order' : Iteration, order.Fair → order'.Fair → manifest.read ≠ manifest'.read →
    manifest.manifestHash sha256 order ≠ manifest'.manifestHash sha256 order'

/-- The two read differently, and differ in nothing but the order of mappings that keep one: the
    modes of a workflow, the options of a gate. -/
def SameButForOrder (manifest manifest' : Manifest) : Prop :=
  manifest.read ≠ manifest'.read ∧ unordered manifest.document = unordered manifest'.document

/-! ## Which manifests share a hash -/

/-- Every map iterated in the order it holds its entries in. -/
def asHeld : Iteration := fun _ entries => entries

theorem asHeld_fair : asHeld.Fair := fun _ entries => List.Perm.refl entries

variable {sha256}

/-- **Two manifests share a hash exactly when they are the same once every mapping is sorted.** -/
theorem manifestHash_eq (hsha : Function.Injective sha256) {order order' : Iteration}
    (hfair : order.Fair) (hfair' : order'.Fair) (manifest manifest' : Manifest) :
    manifest.manifestHash sha256 order = manifest'.manifestHash sha256 order' ↔
      unordered manifest.document = unordered manifest'.document := by
  unfold Manifest.manifestHash contentHash
  rw [hsha.eq_iff, String.ofList_inj,
    canonical_iterated _ hfair manifest.distinct_document,
    canonical_iterated _ hfair' manifest'.distinct_document, canonical_inj]

/-- **The manifest hash tells manifests apart**, exactly where they differ in more than the order of
    a mapping that keeps one; and it depends on no order of iteration. -/
theorem manifest_hash_tells (hsha : Function.Injective sha256) (manifest manifest' : Manifest) :
    (Tells sha256 manifest manifest' ↔ ¬ SameButForOrder manifest manifest') ∧
      ∀ order order' : Iteration, order.Fair → order'.Fair →
        manifest.manifestHash sha256 order = manifest.manifestHash sha256 order' := by
  refine ⟨⟨?_, ?_⟩, ?_⟩
  · rintro htells ⟨hread, hsame⟩
    exact htells asHeld asHeld asHeld_fair asHeld_fair hread
      ((manifestHash_eq hsha asHeld_fair asHeld_fair _ _).mpr hsame)
  · intro hmore order order' hfair hfair' hread hhash
    exact hmore ⟨hread, (manifestHash_eq hsha hfair hfair' _ _).mp hhash⟩
  · intro order order' hfair hfair'
    exact (manifestHash_eq hsha hfair hfair' _ _).mpr rfl

end

/-! ## Two ladders -/

/-- A manifest of one node, under these modes. -/
def laddered (modes : List (String × ModeSpec)) (hdistinct : (modes.map (·.1)).Nodup) : Manifest where
  schemaVersion := 6
  yuntaVersion := "0.1.0"
  workflow :=
    { name := "feature"
      modes := some ⟨modes, hdistinct⟩
      nodes := [⟨struct [("id", some (.str "plan")), ("kind", some (.str "bash"))], rfl⟩] }
  config := ⟨struct [], rfl⟩
  inputs := ⟨[], .nil⟩
  prompts := ⟨[], .nil⟩
  baseBranch := "main"
  baseCommit := "0000000"
  isolation := .none
  maxParallelNodes := 1
  workflowHash := "0"
  configHash := "0"

/-- A ladder from `quick` up to `full`. -/
def upward : Manifest :=
  laddered [("quick", ⟨.nodes ["plan"], none⟩), ("full", ⟨.all, none⟩)] (by decide)

/-- The same modes, `full` declared first. -/
def downward : Manifest :=
  laddered [("full", ⟨.all, none⟩), ("quick", ⟨.nodes ["plan"], none⟩)] (by decide)

/-- The ladder with another mode on top. -/
def further : Manifest :=
  laddered [("quick", ⟨.nodes ["plan"], none⟩), ("whole", ⟨.all, none⟩)] (by decide)

/-- Two manifests whose ladders hold other modes have different hashes. -/
theorem manifest_hash_tells_modes : Tells id upward further := by
  refine ((manifest_hash_tells Function.injective_id _ _).1).mpr ?_
  rintro ⟨-, hsame⟩
  have hcanonical : canonical upward.document = canonical further.document :=
    canonical_inj.mpr hsame
  revert hcanonical
  decide +kernel

/-- **The hash forgets the ladder**: the same modes declared in the other order promote otherwise,
    and the two manifests share their hash. -/
theorem not_manifest_hash_tells :
    upward.read ≠ downward.read ∧
      upward.manifestHash id asHeld = downward.manifestHash id asHeld ∧
      ¬ Tells id upward downward := by
  have hread : upward.read ≠ downward.read := by
    intro h
    have hrender : render upward.read = render downward.read := congrArg render h
    revert hrender
    decide +kernel
  have hcanonical : canonical upward.document = canonical downward.document := by decide +kernel
  have hhash : upward.manifestHash id asHeld = downward.manifestHash id asHeld :=
    (manifestHash_eq Function.injective_id asHeld_fair asHeld_fair _ _).mpr
      (canonical_inj.mp hcanonical)
  exact ⟨hread, hhash, fun htells => htells asHeld asHeld asHeld_fair asHeld_fair hread hhash⟩

end Yunta.Frozen
