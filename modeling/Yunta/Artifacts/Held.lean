/-
  The artifact ledger is the last acceptance of each producer and identity.

  1. **Over a log** — `ReadsLast` says what the ledger's three readers answer of a list of
     acceptances: a producer's artifact is its last one under that identity; `every` lists one
     artifact for each producer and identity, where it was first accepted; and without a producer
     the answer is the acceptance of the identity with the greatest seq.

  2. **The greatest seq** — `foldl_laterOf`: walking what is held and keeping the later of two
     answers the latest of all, and what is held under a key is the latest of its own acceptances.

  3. **Main result** — `artifacts_read_last`, over every accepted log of rising seqs.
-/
import Yunta.Artifacts.Latest

set_option linter.unusedVariables false

namespace Yunta

namespace ArtifactLedger

/-- What the readers answer of the acceptances a log states. -/
structure ReadsLast (l : ArtifactLedger) (accepted : List ArtifactRef) : Prop where
  lookup : ∀ node id, l.latest id (some node) =
    (accepted.filter fun ref => ref.producer = some node ∧ ref.artifact = id).getLast?
  /-- `every` lists each producer and identity once, in the order of their first acceptances. -/
  identities : ∀ key, key ∈ l.every.map ArtifactRef.held ↔ ∃ ref ∈ accepted, ref.held = key
  once : (l.every.map ArtifactRef.held).Nodup
  inOrder : (l.every.map ArtifactRef.held).Pairwise fun a b =>
    (accepted.map ArtifactRef.held).idxOf a < (accepted.map ArtifactRef.held).idxOf b
  /-- And each by its last acceptance. -/
  current : ∀ ref ∈ l.every,
    (accepted.filter fun other => other.held = ref.held).getLast? = some ref
  newest : ∀ id, Newest (accepted.filter fun ref => ref.artifact = id) (l.latest id none)

/-! ## The greatest seq -/

/-- **Keeping the later of two answers the latest of all.** -/
theorem foldl_laterOf (refs : List ArtifactRef) (best : Option ArtifactRef) :
    Newest (best.toList ++ refs) (refs.foldl laterOf best) := by
  induction refs generalizing best with
  | nil => cases best <;> simp [Newest]
  | cons ref refs ih =>
    cases best with
    | none => exact ih (some ref)
    | some best =>
      have hstep : laterOf (some best) ref = some ref ∧ best.seq ≤ ref.seq ∨
          laterOf (some best) ref = some best ∧ ref.seq ≤ best.seq := by
        unfold laterOf
        dsimp only
        split
        · next hle => exact .inl ⟨rfl, hle⟩
        · next hlt => exact .inr ⟨rfl, by omega⟩
      rw [List.foldl_cons]
      rcases hstep with ⟨heq, hle⟩ | ⟨heq, hle⟩
      · rw [heq]
        have hrest := ih (some ref)
        cases hlast : refs.foldl laterOf (some ref) with
        | none => rw [hlast] at hrest; cases hrest
        | some last =>
          rw [hlast] at hrest
          refine ⟨List.mem_cons_of_mem _ hrest.1, fun other hother => ?_⟩
          rcases List.mem_cons.mp hother with rfl | hother
          · exact hle.trans (hrest.2 ref List.mem_cons_self)
          · exact hrest.2 other hother
      · rw [heq]
        have hrest := ih (some best)
        cases hlast : refs.foldl laterOf (some best) with
        | none => rw [hlast] at hrest; cases hrest
        | some last =>
          rw [hlast] at hrest
          have hbest := hrest.2 best List.mem_cons_self
          constructor
          · rcases List.mem_cons.mp hrest.1 with heq | hmem
            · exact List.mem_cons.mpr (.inl heq)
            · exact List.mem_cons_of_mem _ (List.mem_cons_of_mem _ hmem)
          · intro other hother
            rcases List.mem_cons.mp hother with rfl | hother
            · exact hbest
            · rcases List.mem_cons.mp hother with rfl | hother
              · exact hle.trans hbest
              · exact hrest.2 other (List.mem_cons_of_mem _ hother)

/-- The last of a rising list has the greatest seq. -/
theorem le_last_of_rising {refs : List ArtifactRef} (h : refs.Pairwise fun a b => a.seq < b.seq)
    {last : ArtifactRef} (hlast : refs.getLast? = some last) {ref : ArtifactRef} (href : ref ∈ refs) :
    ref.seq ≤ last.seq := by
  obtain ⟨init, rfl⟩ := List.getLast?_eq_some_iff.mp hlast
  rcases List.mem_append.mp href with hinit | hend
  · exact Nat.le_of_lt ((List.pairwise_append.mp h).2.2 ref hinit last (by simp))
  · rw [List.mem_singleton.mp hend]

/-! ## What is held -/

section
variable {l : ArtifactLedger} {accepted : List ArtifactRef}

/-- What the ledger holds is the last acceptance of its producer and identity. -/
theorem Holds.mem_values (h : l.Holds accepted) {ref : ArtifactRef} :
    ref ∈ l.current.toList.map (·.2) ↔ Joined.lastOf ArtifactRef.held accepted ref.held = some ref := by
  constructor
  · intro hmem
    obtain ⟨⟨key, held⟩, hentry, rfl⟩ := List.mem_map.mp hmem
    have hget := Std.ExtTreeMap.mem_toList_iff_getElem?_eq_some.mp hentry
    rw [h.current] at hget
    rwa [(Joined.lastOf_key ArtifactRef.held hget).2]
  · intro hlast
    refine List.mem_map.mpr ⟨(ref.held, ref), ?_, rfl⟩
    rw [Std.ExtTreeMap.mem_toList_iff_getElem?_eq_some, h.current]
    exact hlast

theorem Holds.every_eq (h : l.Holds accepted) :
    l.every = Joined.readback ArtifactRef.held accepted := by
  unfold every Joined.readback
  rw [h.order]
  exact List.filterMap_congr fun key _ => h.current key

/-- **Without a producer**, the acceptance with the greatest seq answers. -/
theorem Holds.latest_newest (h : l.Holds accepted)
    (hrising : accepted.Pairwise fun a b => a.seq < b.seq) (id : ArtifactId) :
    Newest (accepted.filter fun ref => ref.artifact = id) (l.latest id none) := by
  -- no acceptance is later than the one held under its own key
  have hheld : ∀ ref ∈ accepted, ∃ last ∈ l.current.toList.map (·.2),
      last.held = ref.held ∧ ref.seq ≤ last.seq := by
    intro ref href
    obtain ⟨last, hlast⟩ := Option.isSome_iff_exists.mp
      ((Joined.lastOf_isSome ArtifactRef.held).mpr ⟨ref, href, rfl⟩)
    have hkey := (Joined.lastOf_key ArtifactRef.held hlast).2
    refine ⟨last, h.mem_values.mpr (by rwa [hkey]), hkey, ?_⟩
    exact le_last_of_rising (hrising.filter _) hlast
      (List.mem_filter.mpr ⟨href, decide_eq_true rfl⟩)
  have hartifact : ∀ {a b : ArtifactRef}, a.held = b.held → a.artifact = b.artifact :=
    fun heq => (Prod.mk.inj heq).2
  have hfold := foldl_laterOf ((l.current.toList.map (·.2)).filter (·.artifact = id)) none
  show Newest _ (((l.current.toList.map (·.2)).filter (·.artifact = id)).foldl laterOf none)
  cases hlast : ((l.current.toList.map (·.2)).filter (·.artifact = id)).foldl laterOf none with
  | none =>
    rw [hlast] at hfold
    refine List.filter_eq_nil_iff.mpr fun ref href hid => ?_
    obtain ⟨last, hmem, hkey, -⟩ := hheld ref href
    have hid : last.artifact = id := (hartifact hkey).trans (of_decide_eq_true hid)
    have hnone : (l.current.toList.map (·.2)).filter (·.artifact = id) = [] := hfold
    exact List.filter_eq_nil_iff.mp hnone last hmem (decide_eq_true hid)
  | some best =>
    rw [hlast] at hfold
    obtain ⟨hmem, hid⟩ := List.mem_filter.mp hfold.1
    have hbest := (Joined.lastOf_key ArtifactRef.held (h.mem_values.mp hmem)).1
    refine ⟨List.mem_filter.mpr ⟨hbest, hid⟩, fun ref href => ?_⟩
    obtain ⟨href, hrefid⟩ := List.mem_filter.mp href
    obtain ⟨last, hlastmem, hkey, hle⟩ := hheld ref href
    have hid : last.artifact = id := (hartifact hkey).trans (of_decide_eq_true hrefid)
    exact hle.trans (hfold.2 last (List.mem_filter.mpr ⟨hlastmem, decide_eq_true hid⟩))

/-- **A ledger that holds what a rising log states reads as its last acceptances.** -/
theorem Holds.readsLast (h : l.Holds accepted)
    (hrising : accepted.Pairwise fun a b => a.seq < b.seq) : l.ReadsLast accepted where
  lookup node id := by
    show l.current[((some node, id) : Held)]? = _
    rw [h.current]
    unfold Joined.lastOf
    congr 1
    exact List.filter_congr fun ref _ => by simp [ArtifactRef.held]
  identities key := by
    rw [h.every_eq, Joined.readback_map]
    exact Joined.mem_order ArtifactRef.held
  once := by
    rw [h.every_eq, Joined.readback_map]
    exact Joined.order_nodup ArtifactRef.held accepted
  inOrder := by
    rw [h.every_eq, Joined.readback_map]
    exact Joined.order_rising ArtifactRef.held accepted
  current ref href := by
    rw [h.every_eq] at href
    exact Joined.lastOf_of_mem_readback ArtifactRef.held href
  newest id := h.latest_newest hrising id

end

end ArtifactLedger

/-- **The artifact ledger is the last acceptance of each producer and identity**, over every
    accepted log of rising seqs. -/
theorem artifacts_read_last (log : List StoredEvent) (haccepted : Accepted log)
    (hseq : log.Pairwise fun a b => a.seq < b.seq) :
    (derive log).artifacts.ReadsLast (log.filterMap stated) := by
  rw [derive_artifacts haccepted]
  exact (ArtifactLedger.of_holds log).readsLast (stated_rising hseq)

/-- The revision answers for its node and for the run, and stands where its node's first did. -/
theorem artifacts_read_last_rewritten :
    (derive rewrittenSpec).artifacts.latest (.interpreted .spec) (some "spec") =
        some ⟨some "spec", .interpreted .spec, "c", .ingested, 3⟩ ∧
      (derive rewrittenSpec).artifacts.latest (.interpreted .spec) none =
        some ⟨some "spec", .interpreted .spec, "c", .ingested, 3⟩ ∧
      ((derive rewrittenSpec).artifacts.every.map (·.seq)) = [3, 2] ∧
      (derive rewrittenSpec).artifacts.ReadsLast (rewrittenSpec.filterMap stated) := by
  have hreads := artifacts_read_last rewrittenSpec (by decide +kernel) (by decide)
  refine ⟨?_, by decide +kernel, by decide +kernel, hreads⟩
  rw [hreads.lookup]
  decide +kernel

end Yunta
