/-
  The five parts of the finding ledger, and what holds between them.

  1. **Where a finding stands** — `FindingPhase`: absent, live, or withdrawn.  `unsettled` lists the live
     findings nothing settled.

  2. **One event** — `Parts`: what was said, proved and settled is of live findings, each finding
     ever posted is listed once, and a live one carries the id of its key.  `Parts.apply` keeps it,
     `apply_phase` says a finding moves one phase on at most, and `apply_firstPost` that the order
     grows by what is posted for the first time.

  3. **Every log** — `findings_agree`: over every accepted log the parts agree (`Agrees`), and the
     order is the one of the first posts.
-/
import Mathlib.Data.List.Induction
import Yunta.Lib.Saturate
import Yunta.Replay.Growth

set_option linter.unusedVariables false

namespace Yunta

/-! ## Where a finding stands -/

instance : Std.TransOrd FindingKey := inferInstance

inductive FindingPhase where
  | absent
  | live
  | withdrawn
  deriving DecidableEq

namespace FindingPhase

def of : Option Slot → FindingPhase
  | none => absent
  | some (.live _) => live
  | some (.withdrawn _) => withdrawn

/-- What one event may make of a finding: nothing, its post, or its withdrawal. -/
inductive Next : FindingPhase → FindingPhase → Prop
  | same (p : FindingPhase) : Next p p
  | post : Next absent live
  | withdraw : Next live withdrawn

def rank : FindingPhase → Nat
  | absent => 0
  | live => 1
  | withdrawn => 2

theorem Next.rank_le {p q : FindingPhase} (h : Next p q) : p.rank ≤ q.rank := by
  cases h with
  | same => exact Nat.le_refl _
  | post => exact Nat.zero_le 1
  | withdraw => exact Nat.le_succ 1

end FindingPhase

/-- The key of a finding as it is listed. -/
def postedUnder (posted : Option NodeId × Finding) : FindingKey := (posted.1, posted.2.id)

namespace FindingLedger

def phase (l : FindingLedger) (key : FindingKey) : FindingPhase := .of l.slots[key]?

/-- What settled the finding `id` that `node` reported. -/
def settledOf (l : FindingLedger) (node : Option NodeId) (id : FindingId) : Option Settled :=
  l.settled[((node, id) : FindingKey)]?

/-- Every finding that stands and nothing settled, in the order each was first posted. -/
def unsettled (l : FindingLedger) : List (Option NodeId × Finding) :=
  l.effective.filter fun posted => (l.settledOf posted.1 posted.2.id).isNone

/-- What the ledger's parts say of one another. -/
structure Agrees (l : FindingLedger) : Prop where
  answers : ∀ key, l.answers.contains key = true → l.phase key = .live
  proofs : ∀ key, l.proofs.contains key = true → l.phase key = .live
  settled : ∀ key, l.settled.contains key = true → l.phase key = .live
  /-- The order lists every finding live or withdrawn, once. -/
  nodup : l.firstPost.Nodup
  posted : ∀ key, key ∈ l.firstPost ↔ l.phase key ≠ .absent
  /-- What stands is the live findings in that order, as their slots hold them. -/
  effective : l.effective.map postedUnder = l.firstPost.filter fun key => l.phase key = .live
  standing : ∀ posted ∈ l.effective, l.slots[postedUnder posted]? = some (.live posted.2)
  /-- And what is unsettled, those of them without a settlement. -/
  unsettled : l.unsettled.map postedUnder =
    l.firstPost.filter fun key => l.phase key = .live ∧ l.settled[key]? = none
  owed : ∀ posted ∈ l.unsettled, posted ∈ l.effective

/-! ## One event -/

/-- What one event keeps. -/
structure Parts (l : FindingLedger) : Prop where
  answers : ∀ (key : FindingKey) (given : List AnswerGiven), l.answers[key]? = some given →
    l.isLive key = true
  proofs : ∀ (key : FindingKey) (proof : Proof), l.proofs[key]? = some proof → l.isLive key = true
  settled : ∀ (key : FindingKey) (by_ : Settled), l.settled[key]? = some by_ → l.isLive key = true
  nodup : l.firstPost.Nodup
  posted : ∀ key : FindingKey, key ∈ l.firstPost ↔ ∃ slot, l.slots[key]? = some slot
  keyed : ∀ (key : FindingKey) finding, l.slots[key]? = some (.live finding) → finding.id = key.2

section
variable {l : FindingLedger}

theorem isLive_iff_phase {key : FindingKey} : l.isLive key = true ↔ l.phase key = .live := by
  unfold isLive phase
  cases l.slots[key]? with
  | none => simp [FindingPhase.of]
  | some slot => cases slot <;> simp [FindingPhase.of]

theorem parts_empty : ({} : FindingLedger).Parts where
  answers := by simp
  proofs := by simp
  settled := by simp
  nodup := List.nodup_nil
  posted := by simp
  keyed := by simp

/-- A slot written leaves the other keys as they stood. -/
theorem isLive_insert {key a : FindingKey} {slot : Slot} (hne : key ≠ a)
    (h : l.isLive a = true) {l' : FindingLedger} (hslots : l'.slots = l.slots.insert key slot) :
    l'.isLive a = true := by
  obtain ⟨finding, hf⟩ := isLive_iff.mp h
  refine isLive_iff.mpr ⟨finding, ?_⟩
  rw [hslots, OrdMap.getElem?_insert_eq, if_neg hne, hf]

/-- **The first post** of a finding lists it, live. -/
theorem Parts.post (h : l.Parts) (node : Option NodeId) (finding : Finding)
    (hnew : l.slots[((node, finding.id) : FindingKey)]? = none) :
    ({ l with
      firstPost := l.firstPost ++ [(node, finding.id)]
      slots := l.slots.insert (node, finding.id) (.live finding) } : FindingLedger).Parts := by
  have hfresh : ((node, finding.id) : FindingKey) ∉ l.firstPost := by
    intro hmem
    obtain ⟨slot, hslot⟩ := (h.posted _).mp hmem
    rw [hnew] at hslot
    cases hslot
  -- nothing was said of a finding nobody had posted
  have hother : ∀ key : FindingKey, l.isLive key = true → (node, finding.id) ≠ key := by
    rintro key hlive rfl
    obtain ⟨f, hf⟩ := isLive_iff.mp hlive
    rw [hnew] at hf
    cases hf
  constructor
  · intro key given hgiven
    have hlive := h.answers key given hgiven
    exact isLive_insert (hother key hlive) hlive rfl
  · intro key proof hproof
    have hlive := h.proofs key proof hproof
    exact isLive_insert (hother key hlive) hlive rfl
  · intro key by_ hby
    have hlive := h.settled key by_ hby
    exact isLive_insert (hother key hlive) hlive rfl
  · exact List.nodup_append.mpr ⟨h.nodup, List.nodup_singleton _, by
      intro a ha b hb heq
      rw [List.mem_singleton.mp hb] at heq
      exact hfresh (heq ▸ ha)⟩
  · intro key
    show key ∈ l.firstPost ++ [(node, finding.id)] ↔ ∃ slot, (l.slots.insert _ _)[key]? = some slot
    rw [List.mem_append, List.mem_singleton, OrdMap.getElem?_insert_eq, h.posted key]
    by_cases hkey : ((node, finding.id) : FindingKey) = key
    · simp [hkey]
    · simp [hkey, Ne.symm hkey]
  · intro key f hslot
    rcases slot_insert hslot with ⟨rfl, hf⟩ | hold
    · cases hf
      rfl
    · exact h.keyed key f hold

/-- **An update or a withdrawal** of a live finding forgets what was said of it. -/
theorem Parts.replace (h : l.Parts) {key : FindingKey} (hlive : l.isLive key = true) (slot : Slot)
    (hkeyed : ∀ finding, slot = .live finding → finding.id = key.2) :
    ({ l.forget key with slots := l.slots.insert key slot } : FindingLedger).Parts := by
  have hforgotten : ∀ {ν : Type} {m : OrdMap FindingKey ν} {a : FindingKey} {v : ν},
      (m.erase key)[a]? = some v → key ≠ a ∧ m[a]? = some v := by
    intro ν m a v hv
    rw [OrdMap.getElem?_erase_eq] at hv
    split at hv
    · cases hv
    · next hne => exact ⟨hne, hv⟩
  constructor
  · intro a given hgiven
    obtain ⟨hne, hgiven⟩ := hforgotten hgiven
    exact isLive_insert hne (h.answers a given hgiven) rfl
  · intro a proof hproof
    obtain ⟨hne, hproof⟩ := hforgotten hproof
    exact isLive_insert hne (h.proofs a proof hproof) rfl
  · intro a by_ hby
    obtain ⟨hne, hby⟩ := hforgotten hby
    exact isLive_insert hne (h.settled a by_ hby) rfl
  · exact h.nodup
  · intro a
    show a ∈ l.firstPost ↔ ∃ slot', (l.slots.insert key slot)[a]? = some slot'
    rw [OrdMap.getElem?_insert_eq, h.posted a]
    by_cases hkey : key = a
    · obtain ⟨finding, hf⟩ := isLive_iff.mp hlive
      subst hkey
      simp [hf]
    · simp [hkey]
  · intro a finding hslot
    rcases slot_insert hslot with ⟨rfl, hf⟩ | hold
    · exact hkeyed finding hf.symm
    · exact h.keyed a finding hold

/-- What is said, proved or settled of live findings leaves the rest as it was. -/
theorem Parts.note (h : l.Parts) {l' : FindingLedger} (hslots : l'.slots = l.slots)
    (hfirst : l'.firstPost = l.firstPost)
    (hanswers : ∀ (key : FindingKey) (given : List AnswerGiven), l'.answers[key]? = some given →
      l.isLive key = true)
    (hproofs : ∀ (key : FindingKey) (proof : Proof), l'.proofs[key]? = some proof →
      l.isLive key = true)
    (hsettled : ∀ (key : FindingKey) (by_ : Settled), l'.settled[key]? = some by_ →
      l.isLive key = true) : l'.Parts := by
  have hlive : ∀ key, l'.isLive key = l.isLive key := isLive_congr hslots
  refine ⟨?_, ?_, ?_, hfirst ▸ h.nodup, ?_, ?_⟩
  · exact fun key given hgiven => (hlive key).trans (hanswers key given hgiven)
  · exact fun key proof hproof => (hlive key).trans (hproofs key proof hproof)
  · exact fun key by_ hby => (hlive key).trans (hsettled key by_ hby)
  · intro key
    rw [hfirst, hslots]
    exact h.posted key
  · intro key finding hslot
    rw [hslots] at hslot
    exact h.keyed key finding hslot

/-- A value written under a live key is a live key's, and so are the others. -/
theorem live_of_insert {ν : Type} {m : OrdMap FindingKey ν} {key a : FindingKey} {v w : ν}
    (hm : ∀ (a : FindingKey) (w : ν), m[a]? = some w → l.isLive a = true)
    (hkey : l.isLive key = true) (h : (m.insert key v)[a]? = some w) : l.isLive a = true := by
  rw [OrdMap.getElem?_insert_eq] at h
  split at h
  · next heq => exact heq ▸ hkey
  · exact hm a w h

theorem live_of_orInsert {m : OrdMap FindingKey Settled} {key a : FindingKey} {v w : Settled}
    (hm : ∀ (a : FindingKey) (w : Settled), m[a]? = some w → l.isLive a = true)
    (hkey : l.isLive key = true) (h : (orInsert m key v)[a]? = some w) : l.isLive a = true := by
  unfold orInsert at h
  split at h
  · exact hm a w h
  · exact live_of_insert hm hkey h

theorem Parts.proved (h : l.Parts) (by_ : Option NodeId) (p : FindingProvedPayload) :
    (l.proved by_ p).Parts := by
  unfold FindingLedger.proved
  dsimp only
  split
  · next hlive =>
    refine h.note rfl rfl h.answers ?_ ?_
    · exact fun key proof hproof => live_of_insert h.proofs hlive hproof
    · intro key settled hsettled
      dsimp only at hsettled
      split at hsettled
      · exact live_of_orInsert h.settled hlive hsettled
      · exact h.settled key settled hsettled
  · exact h

theorem Parts.answered (h : l.Parts) (by_ : Option NodeId) (p : FindingAnsweredPayload) :
    (l.answered by_ p).Parts := by
  unfold FindingLedger.answered
  dsimp only
  split
  · next hlive =>
    refine h.note rfl rfl ?_ h.proofs h.settled
    exact fun key given hgiven => live_of_insert h.answers hlive hgiven
  · exact h

/-- **One event keeps the parts**, whichever it is. -/
theorem Parts.apply (h : l.Parts) (node : Option NodeId) (event : FindingEvent) :
    (l.apply node event).Parts := by
  cases event with
  | posted finding =>
    unfold FindingLedger.apply
    dsimp only
    split
    · exact h
    · next hnew => exact h.post node finding hnew
  | updated finding =>
    unfold FindingLedger.apply
    dsimp only
    split
    · next hlive =>
      refine h.replace hlive _ ?_
      intro f hf
      cases hf
      rfl
    · exact h
  | withdrawn p =>
    unfold FindingLedger.apply
    dsimp only
    split
    · next hlive => exact h.replace hlive _ fun f hf => absurd hf (by simp)
    · exact h
  | refused => exact h
  | answered p => exact h.answered node p
  | proved p => exact h.proved node p
  | settled p =>
    cases node with
    | none => exact h
    | some gate =>
      unfold FindingLedger.apply
      dsimp only
      split
      · next hlive =>
        refine h.note rfl rfl h.answers h.proofs ?_
        exact fun key by_ hby => live_of_orInsert h.settled hlive hby
      · exact h

/-! ### What one event makes of a finding -/

theorem phase_insert (slots : OrdMap FindingKey Slot) (key a : FindingKey) (slot : Slot) :
    FindingPhase.of (slots.insert key slot)[a]? =
      if key = a then FindingPhase.of (some slot) else FindingPhase.of slots[a]? := by
  rw [OrdMap.getElem?_insert_eq]
  split <;> rfl

/-- A slot written over a live finding's moves that finding alone, and on. -/
theorem next_of_replace {key : FindingKey} (hlive : l.isLive key = true) (slot : Slot)
    (a : FindingKey) :
    FindingPhase.Next (l.phase a) (FindingPhase.of (l.slots.insert key slot)[a]?) := by
  rw [phase_insert]
  split
  · next heq =>
    rw [← heq, isLive_iff_phase.mp hlive]
    cases slot with
    | live finding => exact .same _
    | withdrawn reason => exact .withdraw
  · exact .same _

/-- **One event moves a finding one phase on at most**: its post makes it live, its withdrawal ends
    it. -/
theorem apply_phase (l : FindingLedger) (node : Option NodeId) (event : FindingEvent)
    (a : FindingKey) : FindingPhase.Next (l.phase a) ((l.apply node event).phase a) := by
  cases event with
  | posted finding =>
    unfold FindingLedger.apply
    dsimp only
    split
    · exact .same _
    · next hnew =>
      show FindingPhase.Next (l.phase a) (FindingPhase.of (l.slots.insert _ _)[a]?)
      rw [phase_insert]
      split
      · next heq =>
        rw [phase, ← heq, hnew]
        exact .post
      · exact .same _
  | updated finding =>
    unfold FindingLedger.apply
    dsimp only
    split
    · next hlive => exact next_of_replace hlive _ a
    · exact .same _
  | withdrawn p =>
    unfold FindingLedger.apply
    dsimp only
    split
    · next hlive => exact next_of_replace hlive _ a
    · exact .same _
  | refused => exact .same _
  | answered p =>
    show FindingPhase.Next _ ((l.answered node p).phase a)
    unfold answered
    dsimp only
    split <;> exact .same _
  | proved p =>
    show FindingPhase.Next _ ((l.proved node p).phase a)
    unfold proved
    dsimp only
    split <;> exact .same _
  | settled p =>
    cases node with
    | none => exact .same _
    | some gate =>
      unfold FindingLedger.apply
      dsimp only
      split <;> exact .same _

/-- The key a finding is posted under, when the event posts one. -/
def postedKey (node : Option NodeId) : FindingEvent → Option FindingKey
  | .posted finding => some (node, finding.id)
  | _ => none

/-- **The order grows by what is posted for the first time**, and is never moved. -/
theorem Parts.apply_firstPost (h : l.Parts) (node : Option NodeId) (event : FindingEvent) :
    (l.apply node event).firstPost =
      Saturate.addAll l.firstPost (postedKey node event).toList := by
  cases event with
  | posted finding =>
    have hmem := h.posted (node, finding.id)
    show _ = Saturate.add l.firstPost (node, finding.id)
    unfold FindingLedger.apply Saturate.add
    dsimp only
    split
    · next slot hslot =>
      have hheld := hmem.mpr ⟨slot, hslot⟩
      rw [if_pos (by simpa using hheld)]
    · next hnew =>
      have hfresh : (node, finding.id) ∉ l.firstPost := by
        intro hheld
        obtain ⟨slot, hslot⟩ := hmem.mp hheld
        rw [hnew] at hslot
        cases hslot
      rw [if_neg (by simpa using hfresh)]
  | updated finding => unfold FindingLedger.apply; dsimp only; split <;> rfl
  | withdrawn p => unfold FindingLedger.apply; dsimp only; split <;> rfl
  | refused => rfl
  | answered p =>
    show (l.answered node p).firstPost = l.firstPost
    unfold FindingLedger.answered
    dsimp only
    split <;> rfl
  | proved p =>
    show (l.proved node p).firstPost = l.firstPost
    unfold FindingLedger.proved
    dsimp only
    split <;> rfl
  | settled p =>
    cases node with
    | none => rfl
    | some gate => unfold FindingLedger.apply; dsimp only; split <;> rfl

/-! ## What the parts answer -/

/-- A finding listed, with its slot. -/
theorem Parts.slot_of_effective (h : l.Parts) {posted : Option NodeId × Finding}
    (hmem : posted ∈ l.effective) : l.slots[postedUnder posted]? = some (.live posted.2) := by
  obtain ⟨key, -, hkey⟩ := List.mem_filterMap.mp hmem
  split at hkey
  · next finding hf =>
    cases hkey
    have hkeyed : postedUnder (key.1, finding) = key := Prod.ext rfl (h.keyed key finding hf)
    rw [hkeyed, hf]
  · cases hkey

theorem Parts.effective_map (h : l.Parts) :
    l.effective.map postedUnder = l.firstPost.filter fun key => l.phase key = .live := by
  unfold effective
  rw [List.map_filterMap, ← List.filterMap_eq_filter]
  refine List.filterMap_congr fun key _ => ?_
  cases hslot : l.slots[key]? with
  | none => simp [Option.guard, phase, hslot, FindingPhase.of]
  | some slot =>
    cases slot with
    | live finding =>
      have hkeyed : postedUnder (key.1, finding) = key := Prod.ext rfl (h.keyed key finding hslot)
      simp [Option.guard, phase, hslot, FindingPhase.of, hkeyed]
    | withdrawn reason => simp [Option.guard, phase, hslot, FindingPhase.of]

theorem Parts.unsettled_map (h : l.Parts) :
    l.unsettled.map postedUnder =
      l.firstPost.filter fun key => l.phase key = .live ∧ l.settled[key]? = none := by
  have hfilter : l.unsettled =
      l.effective.filter ((fun key => (l.settled[key]?).isNone) ∘ postedUnder) := rfl
  rw [hfilter, ← List.filter_map, h.effective_map, List.filter_filter]
  refine List.filter_congr fun key _ => ?_
  cases l.settled[key]? <;> simp

/-- **The parts agree.** -/
theorem Parts.agrees (h : l.Parts) : l.Agrees where
  answers key hkey := by
    rw [Std.ExtTreeMap.contains_eq_isSome_getElem?] at hkey
    obtain ⟨given, hgiven⟩ := Option.isSome_iff_exists.mp hkey
    exact isLive_iff_phase.mp (h.answers key given hgiven)
  proofs key hkey := by
    rw [Std.ExtTreeMap.contains_eq_isSome_getElem?] at hkey
    obtain ⟨proof, hproof⟩ := Option.isSome_iff_exists.mp hkey
    exact isLive_iff_phase.mp (h.proofs key proof hproof)
  settled key hkey := by
    rw [Std.ExtTreeMap.contains_eq_isSome_getElem?] at hkey
    obtain ⟨by_, hby⟩ := Option.isSome_iff_exists.mp hkey
    exact isLive_iff_phase.mp (h.settled key by_ hby)
  nodup := h.nodup
  posted key := by
    rw [h.posted key, phase]
    cases l.slots[key]? with
    | none => simp [FindingPhase.of]
    | some slot => cases slot <;> simp [FindingPhase.of]
  effective := h.effective_map
  standing posted hmem := h.slot_of_effective hmem
  unsettled := h.unsettled_map
  owed posted hmem := (List.mem_filter.mp hmem).1

end

end FindingLedger

/-! ## Every log -/

/-- The key of the finding an event of the log posts, when it posts one. -/
def posts (event : StoredEvent) : Option FindingKey :=
  match event.payload with
  | some (.findings e) => FindingLedger.postedKey event.nodeId e
  | _ => none

namespace RunState

/-- What a taken event leaves of the findings, by what one finding event does. -/
theorem taken_parts {s : RunState} {event : StoredEvent} (h : s.findings.Parts)
    (hr : s.refuse event = .ok ()) :
    (s.taken event).findings.Parts ∧
      (s.taken event).findings.firstPost =
        Saturate.addAll s.findings.firstPost (posts event).toList ∧
      ∀ key, FindingPhase.Next (s.findings.phase key) ((s.taken event).findings.phase key) := by
  have hkeep : s.findings.Parts ∧ s.findings.firstPost = s.findings.firstPost ∧
      ∀ key, FindingPhase.Next (s.findings.phase key) (s.findings.phase key) :=
    ⟨h, rfl, fun key => .same _⟩
  unfold posts
  rw [taken_findings hr]
  cases event.payload with
  | none => exact hkeep
  | some payload =>
    cases payload with
    | findings e =>
      exact ⟨h.apply event.nodeId e, h.apply_firstPost event.nodeId e,
        s.findings.apply_phase event.nodeId e⟩
    | _ => exact hkeep

end RunState

/-- The parts of every accepted log, and the order of its findings. -/
theorem derive_parts {log : List StoredEvent} (h : Accepted log) :
    (derive log).findings.Parts ∧
      (derive log).findings.firstPost = Saturate.addAll [] (log.filterMap posts) := by
  induction log using List.reverseRecOn with
  | nil => exact ⟨FindingLedger.parts_empty, rfl⟩
  | append_singleton log event ih =>
    obtain ⟨hparts, hfirst⟩ := ih (accepted_of_append h)
    obtain ⟨hr, htaken⟩ := derive_snoc h
    obtain ⟨hparts, hgrown, -⟩ := RunState.taken_parts hparts hr
    rw [htaken]
    refine ⟨hparts, ?_⟩
    have hlast : [event].filterMap posts = (posts event).toList := by
      cases hposts : posts event <;> simp [hposts]
    rw [hgrown, hfirst, List.filterMap_append, hlast]
    exact List.foldl_append.symm

/-- One event of an accepted log moves a finding one phase on at most. -/
theorem derive_phase {log : List StoredEvent} {event : StoredEvent}
    (h : Accepted (log ++ [event])) (key : FindingKey) :
    FindingPhase.Next ((derive log).findings.phase key)
      ((derive (log ++ [event])).findings.phase key) := by
  obtain ⟨hr, htaken⟩ := derive_snoc h
  rw [htaken]
  exact (RunState.taken_parts (derive_parts (accepted_of_append h)).1 hr).2.2 key

/-- A finding never goes back. -/
theorem phase_rank_le {before after : List StoredEvent} (h : Accepted (before ++ after))
    (key : FindingKey) :
    ((derive before).findings.phase key).rank ≤
      ((derive (before ++ after)).findings.phase key).rank := by
  induction after using List.reverseRecOn with
  | nil => rw [List.append_nil]
  | append_singleton after event ih =>
    rw [← List.append_assoc] at h ⊢
    exact (ih (accepted_of_append h)).trans (derive_phase h key).rank_le

/-- **The parts of the finding ledger agree over every accepted log**: what is said, proved and
    settled is of live findings; the order lists every finding once, where it was first posted; what
    stands and what is unsettled are the live findings in that order; and each event moves a finding
    one phase on at most, so that none goes back. -/
theorem findings_agree (log : List StoredEvent) (h : Accepted log) :
    (derive log).findings.Agrees ∧
      (derive log).findings.firstPost = Saturate.addAll [] (log.filterMap posts) ∧
      (∀ before event after, log = before ++ event :: after → ∀ key,
        FindingPhase.Next ((derive before).findings.phase key)
          ((derive (before ++ [event])).findings.phase key)) ∧
      ∀ before after, log = before ++ after → ∀ key,
        ((derive before).findings.phase key).rank ≤ ((derive log).findings.phase key).rank := by
  obtain ⟨hparts, hfirst⟩ := derive_parts h
  refine ⟨hparts.agrees, hfirst, ?_, ?_⟩
  · rintro before event after rfl key
    have hsplit : before ++ event :: after = (before ++ [event]) ++ after := by simp
    rw [hsplit] at h
    exact derive_phase (accepted_of_append h) key
  · rintro before after rfl key
    exact phase_rank_le h key

/-- Two findings posted, one of them answered and withdrawn, and the other settled at a gate. -/
def twoFindings : List StoredEvent :=
  [⟨"", 1, 0, some "review", .known (.findings (.posted ⟨"leak", .major, "", ""⟩))⟩,
    ⟨"", 2, 1, some "review", .known (.findings (.posted ⟨"race", .minor, "", ""⟩))⟩,
    ⟨"", 3, 2, some "build", .known (.findings (.answered ⟨"review", "leak", .fixed, ""⟩))⟩,
    ⟨"", 4, 3, some "review", .known (.findings (.withdrawn ⟨"leak", ""⟩))⟩,
    ⟨"", 5, 4, some "ship", .known (.findings (.settled ⟨some "review", "race"⟩))⟩]

/-- The one withdrawn is listed and stands no more, and the one settled stands and is not owed. -/
theorem findings_agree_two :
    (derive twoFindings).findings.firstPost =
        [(some "review", "leak"), (some "review", "race")] ∧
      (derive twoFindings).findings.effective.map postedUnder = [(some "review", "race")] ∧
      (derive twoFindings).findings.unsettled.map postedUnder = [] := by
  obtain ⟨hagrees, hfirst, -⟩ := findings_agree twoFindings (by decide +kernel)
  refine ⟨hfirst.trans (by decide +kernel), ?_, ?_⟩
  · rw [hagrees.effective]
    decide +kernel
  · rw [hagrees.unsettled]
    decide +kernel

end Yunta
