/-
  A run's object store, where each artifact's bytes live under the hash they have.

  1. **Puts** — any number at once, of the run's engine or of others: the bytes go to a file of no
     object's name, which is linked under their hash unless something is there.  A `synced` put flushes
     the bytes before it links them and the directory after it; an `atomic` one flushes neither.

  2. **A power loss** — what is not on disk may be gone, or hold other bytes: a name survives with a
     flush of the directory, whichever put makes it, and bytes with a flush of their own file.  No put
     flushes the directory's own entry, which its first put made: until the system has written that
     back, a loss may take the directory with all in it.

  3. **Main results** — `put_lasts`: what a synced put linked in a directory that is on disk itself is
     read back through anything after it.  `objects_found`: until a power loss, whatever a put answered
     for is found.
-/
import Mathlib.Data.Set.Function
import Yunta.Lib.Machine

set_option linter.unusedVariables false
set_option linter.unusedSectionVars false

namespace Yunta.Objects

/-! ## The store -/

inductive Durability where
  | atomic | synced
  deriving DecidableEq

structure Object (β : Type) where
  bytes : β
  /-- Its bytes are on disk. -/
  flushed : Bool
  /-- Its name is on disk. -/
  named : Bool

inductive Phase (β : Type) where
  | idle
  /-- Writes a file no object is named by. -/
  | staging (bytes : β) (durability : Durability)
  | linked (bytes : β) (durability : Durability)
  /-- Answered the hash of the bytes: its own file was linked under it, or the name was taken. -/
  | answered (bytes : β) (durability : Durability) (created : Bool)
  deriving DecidableEq

structure World (κ β : Type) where
  /-- The directory of the objects, and whether its own entry is on disk. -/
  directory : Option Bool
  objects : κ → Option (Object β)
  tasks : Nat → Phase β

inductive Act (κ β : Type) where
  | put (t : Nat) (bytes : β) (durability : Durability)
  | link (t : Nat)
  | answer (t : Nat)
  /-- A write fails, or whoever puts is gone. -/
  | fail (t : Nat)
  /-- The system writes the directory's entry back. -/
  | writeBack
  /-- A power loss: what is left of what was not on disk, and whether the directory is. -/
  | lose (left : κ → Option β) (keeps : Bool)

inductive ObjectProblem (κ : Type) where
  | missing (hash : κ)
  | corrupt (hash found : κ)

section
variable {κ β : Type} [DecidableEq κ] (hash : β → κ)

/-- The bytes a hash names, verified against it. -/
def World.get (w : World κ β) (name : κ) : Except (ObjectProblem κ) β :=
  match w.objects name with
  | none => .error (.missing name)
  | some object =>
    if hash object.bytes = name then .ok object.bytes else .error (.corrupt name (hash object.bytes))

def World.setTask (w : World κ β) (t : Nat) (phase : Phase β) : World κ β :=
  { w with tasks := Function.update w.tasks t phase }

/-- The directory, made where there is none. -/
def World.createDirAll (w : World κ β) : World κ β :=
  { w with directory := some (w.directory.getD false) }

/-- What a power loss leaves of an object. -/
def Object.after (object : Object β) (left : Option β) : Option (Object β) :=
  if object.flushed then
    if object.named then some object else left.map fun _ => ⟨object.bytes, true, true⟩
  else left.map fun bytes => ⟨bytes, true, true⟩

/-- A flush of the directory. -/
def World.syncDirectory (w : World κ β) : World κ β :=
  { w with objects := fun name => (w.objects name).map fun object => { object with named := true } }

/-- One act.  `link` is `persist_noclobber`: it never takes a name. -/
def step (w : World κ β) : Act κ β → Option (World κ β)
  | .put t bytes durability =>
    match w.tasks t with
    | .idle | .answered .. => some (w.createDirAll.setTask t (.staging bytes durability))
    | _ => none
  | .link t =>
    match w.tasks t with
    | .staging bytes durability =>
      match w.objects (hash bytes) with
      | some _ => some (w.setTask t (.answered bytes durability false))
      | none =>
        let object : Object β := ⟨bytes, durability = .synced, false⟩
        some ({ w with objects := Function.update w.objects (hash bytes) (some object) }.setTask t
          (.linked bytes durability))
    | _ => none
  | .answer t =>
    match w.tasks t with
    | .linked bytes .synced => some (w.syncDirectory.setTask t (.answered bytes .synced true))
    | .linked bytes .atomic => some (w.setTask t (.answered bytes .atomic true))
    | _ => none
  | .fail t => some (w.setTask t .idle)
  | .writeBack => some { w with directory := w.directory.map fun _ => true }
  | .lose left keeps =>
    if w.directory = some true ∨ keeps = true then
      some ⟨w.directory.map fun _ => true,
        fun name => (w.objects name).bind fun object => object.after (left name), fun _ => .idle⟩
    else some ⟨none, fun _ => none, fun _ => .idle⟩

/-- Before any put, whatever the store holds. -/
def Start (w : World κ β) : Prop := ∀ t, w.tasks t = .idle

/-- Every object's bytes have the hash it is named by. -/
def Whole (w : World κ β) : Prop := ∀ name object, w.objects name = some object → hash object.bytes = name

/-- The power stays. -/
def Powered (w : World κ β) : Act κ β → Prop
  | .lose _ _ => False
  | _ => True

/-- Just these bytes are put, and left by a power loss. -/
def Writes (known : β → Prop) (w : World κ β) : Act κ β → Prop
  | .put _ bytes _ => known bytes
  | .lose left _ => ∀ name bytes, left name = some bytes → known bytes
  | _ => True

/-! ## What acts keep -/

/-- These bytes are an object's, and of them and of its name so much is on disk. -/
def Has (objects : κ → Option (Object β)) (name : κ) (bytes : β) (flushed named : Bool) : Prop :=
  ∃ object, objects name = some object ∧ object.bytes = bytes ∧
    (flushed = true → object.flushed = true) ∧ (named = true → object.named = true)

/-- What a put relies on. -/
def Relies (objects : κ → Option (Object β)) : Phase β → Prop
  | .linked bytes durability => Has objects (hash bytes) bytes (durability = .synced) false
  | .answered bytes durability true =>
    Has objects (hash bytes) bytes (durability = .synced) (durability = .synced)
  | .answered bytes _ false => ∃ found, Has objects (hash bytes) found false false
  | _ => True

def Inv (w : World κ β) : Prop := ∀ t, Relies hash w.objects (w.tasks t)

variable {hash} {w w' : World κ β} {t : Nat} {bytes : β} {name : κ} {flushed named : Bool}

/-- What an act does to the objects. -/
theorem step_objects {act : Act κ β} (hstep : step hash w act = some w') :
    w'.objects = w.objects ∨ w'.objects = w.syncDirectory.objects ∨
      (∃ object, w.objects (hash object.bytes) = none ∧
        w'.objects = Function.update w.objects (hash object.bytes) (some object)) ∨
      ∃ left keeps, act = .lose left keeps ∧ (w.directory = some true →
        w'.objects = fun name => (w.objects name).bind (·.after (left name))) ∧
          ∀ name object, w'.objects name = some object →
            ∃ was, w.objects name = some was ∧ was.after (left name) = some object := by
  cases act with
  | put t bytes durability =>
    rw [step] at hstep
    split at hstep
    · exact .inl (Option.some.inj hstep ▸ rfl)
    · exact .inl (Option.some.inj hstep ▸ rfl)
    · cases hstep
  | link t =>
    rw [step] at hstep
    split at hstep
    · next bytes durability hphase =>
      split at hstep
      · exact .inl (Option.some.inj hstep ▸ rfl)
      · next hnone =>
        obtain rfl := Option.some.inj hstep
        exact .inr (.inr (.inl ⟨⟨bytes, durability = .synced, false⟩, hnone, rfl⟩))
    · cases hstep
  | answer t =>
    rw [step] at hstep
    split at hstep
    · exact .inr (.inl (Option.some.inj hstep ▸ rfl))
    · exact .inl (Option.some.inj hstep ▸ rfl)
    · cases hstep
  | fail t => exact .inl (Option.some.inj hstep ▸ rfl)
  | writeBack => exact .inl (Option.some.inj hstep ▸ rfl)
  | lose left keeps =>
    refine .inr (.inr (.inr ⟨left, keeps, rfl, ?_⟩))
    rw [step] at hstep
    split at hstep
    · obtain rfl := Option.some.inj hstep
      exact ⟨fun _ => rfl, fun name object hobject => Option.bind_eq_some_iff.mp hobject⟩
    · next hgone =>
      obtain rfl := Option.some.inj hstep
      exact ⟨fun hdisk => absurd (.inl hdisk) hgone, fun name object hobject => by cases hobject⟩

/-- A directory on disk stays there. -/
theorem directory_step {act : Act κ β} (h : w.directory = some true)
    (hstep : step hash w act = some w') : w'.directory = some true := by
  cases act with
  | put t bytes durability =>
    rw [step] at hstep
    have hmade : w.createDirAll.directory = some true := by rw [World.createDirAll, h]; rfl
    split at hstep
    · exact Option.some.inj hstep ▸ hmade
    · exact Option.some.inj hstep ▸ hmade
    · cases hstep
  | link t =>
    rw [step] at hstep
    split at hstep
    · split at hstep <;> exact Option.some.inj hstep ▸ h
    · cases hstep
  | answer t =>
    rw [step] at hstep
    split at hstep
    · exact Option.some.inj hstep ▸ h
    · exact Option.some.inj hstep ▸ h
    · cases hstep
  | fail t => exact Option.some.inj hstep ▸ h
  | writeBack =>
    obtain rfl := Option.some.inj hstep
    show w.directory.map _ = _
    rw [h, Option.map_some]
  | lose left keeps =>
    rw [step, if_pos (.inl h)] at hstep
    obtain rfl := Option.some.inj hstep
    show w.directory.map _ = _
    rw [h, Option.map_some]

/-- **Step lemma**: an object stays with its bytes, through a power loss where all of it is on disk, and
    the directory itself. -/
theorem Has.step {act : Act κ β} (h : Has w.objects name bytes flushed named)
    (hstep : Objects.step hash w act = some w')
    (hsafe : Powered w act ∨ w.directory = some true ∧ flushed = true ∧ named = true) :
    Has w'.objects name bytes flushed named := by
  obtain ⟨object, hobject, hbytes, hflushed, hnamed⟩ := h
  rcases step_objects hstep with heq | heq | ⟨new, hnone, heq⟩ | ⟨left, keeps, rfl, heq, -⟩
  · exact ⟨object, heq ▸ hobject, hbytes, hflushed, hnamed⟩
  · refine ⟨{ object with named := true }, ?_, hbytes, hflushed, fun _ => rfl⟩
    rw [heq]
    show (w.objects name).map _ = _
    rw [hobject, Option.map_some]
  · have hne : name ≠ hash new.bytes := by
      rintro rfl
      rw [hnone] at hobject
      cases hobject
    exact ⟨object, by rw [heq, Function.update_of_ne hne, hobject], hbytes, hflushed, hnamed⟩
  · obtain hpowered | ⟨hdisk, hf, hn⟩ := hsafe
    · exact hpowered.elim
    · refine ⟨object, ?_, hbytes, hflushed, hnamed⟩
      rw [heq hdisk]
      show (w.objects name).bind _ = _
      rw [hobject, Option.bind_some, Object.after, if_pos (hflushed hf), if_pos (hnamed hn)]

theorem Has.run (h : Has w.objects name bytes flushed named)
    (hrun : Machine.Reached (Objects.step hash) Powered w w') : Has w'.objects name bytes flushed named :=
  @Machine.Reached.invariant _ _ _ _ _ (fun v => Has v.objects name bytes flushed named) _ hrun h
    fun v act v' hv hpowered hstep => Has.step hv hstep (.inl hpowered)

theorem Relies.step {act : Act κ β} {phase : Phase β} (h : Relies hash w.objects phase)
    (hstep : Objects.step hash w act = some w') (hpowered : Powered w act) : Relies hash w'.objects phase := by
  cases phase with
  | linked => exact Has.step h hstep (.inl hpowered)
  | answered bytes durability created =>
    cases created with
    | true => exact Has.step h hstep (.inl hpowered)
    | false =>
      obtain ⟨found, hfound⟩ := h
      exact ⟨found, hfound.step hstep (.inl hpowered)⟩
  | _ => trivial

theorem Inv.step {act : Act κ β} (h : Inv hash w) (hstep : Objects.step hash w act = some w') :
    Inv hash w' := by
  -- the put that acts goes on, over what the act leaves of what the others rely on
  have hgoes : ∀ t phase, Powered w act → w'.tasks = Function.update w.tasks t phase →
      Relies hash w'.objects phase → Inv hash w' := by
    intro t phase hpowered htasks hnew t'
    rw [htasks]
    by_cases ht : t' = t
    · rw [ht, Function.update_self]
      exact hnew
    · rw [Function.update_of_ne ht]
      exact (h t').step hstep hpowered
  cases act with
  | put t bytes durability =>
    rw [Objects.step] at hstep
    split at hstep
    · obtain rfl := Option.some.inj hstep
      exact hgoes t _ trivial rfl trivial
    · obtain rfl := Option.some.inj hstep
      exact hgoes t _ trivial rfl trivial
    · cases hstep
  | link t =>
    rw [Objects.step] at hstep
    split at hstep
    · next bytes durability hphase =>
      split at hstep
      · next found hfound =>
        obtain rfl := Option.some.inj hstep
        exact hgoes t _ trivial rfl ⟨found.bytes, found, hfound, rfl, Bool.noConfusion, Bool.noConfusion⟩
      · obtain rfl := Option.some.inj hstep
        exact hgoes t _ trivial rfl ⟨_, Function.update_self .., rfl, id, Bool.noConfusion⟩
    · cases hstep
  | answer t =>
    have hmine := h t
    rw [Objects.step] at hstep
    split at hstep
    · next bytes hphase =>
      rw [hphase] at hmine
      obtain ⟨object, hobject, hbytes, hflushed, -⟩ := hmine
      obtain rfl := Option.some.inj hstep
      refine hgoes t _ trivial rfl ⟨{ object with named := true }, ?_, hbytes, hflushed, fun _ => rfl⟩
      show (w.objects (hash bytes)).map _ = _
      rw [hobject, Option.map_some]
    · next bytes hphase =>
      rw [hphase] at hmine
      obtain rfl := Option.some.inj hstep
      exact hgoes t _ trivial rfl hmine
    · cases hstep
  | fail t =>
    obtain rfl := Option.some.inj hstep
    exact hgoes t _ trivial rfl trivial
  | writeBack =>
    have hpowered : Powered w (.writeBack : Act κ β) := trivial
    have hobjects : w'.tasks = w.tasks := Option.some.inj hstep ▸ rfl
    intro t
    rw [hobjects]
    exact (h t).step hstep hpowered
  | lose left keeps =>
    rw [Objects.step] at hstep
    split at hstep
    · obtain rfl := Option.some.inj hstep
      exact fun _ => trivial
    · obtain rfl := Option.some.inj hstep
      exact fun _ => trivial

theorem Inv.reached (hstart : Start w) (hreach : Machine.Reached (Objects.step hash) Machine.Free w w') :
    Inv hash w' :=
  hreach.invariant (fun t => (by rw [hstart t]; trivial)) fun _ _ _ hs _ hstep => hs.step hstep

/-- While the power stays, a whole store is whole. -/
theorem Whole.run (h : Whole hash w) (hrun : Machine.Reached (Objects.step hash) Powered w w') :
    Whole hash w' := by
  refine hrun.invariant h fun v act v' hv hpowered hstep name object hobject => ?_
  rcases step_objects hstep with heq | heq | ⟨new, -, heq⟩ | ⟨left, keeps, rfl, -⟩
  · exact hv name object (heq ▸ hobject)
  · rw [heq] at hobject
    obtain ⟨was, hwas, rfl⟩ := Option.map_eq_some_iff.mp hobject
    exact hv name was hwas
  · rw [heq] at hobject
    by_cases hname : name = hash new.bytes
    · rw [hname, Function.update_self] at hobject
      rw [hname, ← Option.some.inj hobject]
    · rw [Function.update_of_ne hname] at hobject
      exact hv name object hobject
  · exact hpowered.elim

/-- The bytes a put is about. -/
def Phase.bytes? : Phase β → Option β
  | .idle => none
  | .staging bytes _ | .linked bytes _ | .answered bytes _ _ => some bytes

/-- Just these bytes are objects, or being put. -/
structure Knows (known : β → Prop) (w : World κ β) : Prop where
  objects : ∀ name object, w.objects name = some object → known object.bytes
  tasks : ∀ t bytes, (w.tasks t).bytes? = some bytes → known bytes

/-- What a power loss leaves of an object are its own bytes, or those it leaves there. -/
theorem after_bytes {object left : Object β} {gone : Option β} (h : object.after gone = some left) :
    left.bytes = object.bytes ∨ gone = some left.bytes := by
  rw [Object.after] at h
  split at h
  · split at h
    · exact .inl (Option.some.inj h ▸ rfl)
    · obtain ⟨bytes, -, rfl⟩ := Option.map_eq_some_iff.mp h
      exact .inl rfl
  · obtain ⟨bytes, hbytes, rfl⟩ := Option.map_eq_some_iff.mp h
    exact .inr hbytes

theorem Knows.setTask {known : β → Prop} (h : Knows known w) (t : Nat) (phase : Phase β)
    (hphase : ∀ bytes, phase.bytes? = some bytes → known bytes) : Knows known (w.setTask t phase) := by
  refine ⟨h.objects, fun t' bytes hbytes => ?_⟩
  by_cases ht : t' = t
  · rw [ht] at hbytes
    change (Function.update w.tasks t phase t).bytes? = _ at hbytes
    rw [Function.update_self] at hbytes
    exact hphase bytes hbytes
  · change (Function.update w.tasks t phase t').bytes? = _ at hbytes
    rw [Function.update_of_ne ht] at hbytes
    exact h.tasks t' bytes hbytes

theorem Knows.step {known : β → Prop} {act : Act κ β} (h : Knows known w) (hwrites : Writes known w act)
    (hstep : Objects.step hash w act = some w') : Knows known w' := by
  cases act with
  | put t bytes durability =>
    have hmade : Knows known w.createDirAll := ⟨h.objects, h.tasks⟩
    have hput : Knows known (w.createDirAll.setTask t (.staging bytes durability)) :=
      hmade.setTask t _ fun other hother => Option.some.inj hother ▸ hwrites
    rw [Objects.step] at hstep
    split at hstep
    · exact Option.some.inj hstep ▸ hput
    · exact Option.some.inj hstep ▸ hput
    · cases hstep
  | link t =>
    rw [Objects.step] at hstep
    split at hstep
    · next bytes durability hphase =>
      have hbytes : known bytes := h.tasks t bytes (by rw [hphase]; rfl)
      have hsame : ∀ other, some bytes = some other → known other := fun other hother =>
        Option.some.inj hother ▸ hbytes
      split at hstep
      · obtain rfl := Option.some.inj hstep
        exact h.setTask t _ hsame
      · obtain rfl := Option.some.inj hstep
        refine Knows.setTask (w := { w with objects := Function.update w.objects (hash bytes) _ })
          ⟨fun name object hobject => ?_, h.tasks⟩ t _ hsame
        change Function.update w.objects _ _ name = some object at hobject
        by_cases hname : name = hash bytes
        · rw [hname, Function.update_self] at hobject
          exact Option.some.inj hobject ▸ hbytes
        · rw [Function.update_of_ne hname] at hobject
          exact h.objects name object hobject
    · cases hstep
  | answer t =>
    rw [Objects.step] at hstep
    split at hstep
    · next bytes hphase =>
      obtain rfl := Option.some.inj hstep
      have hsynced : Knows known w.syncDirectory := by
        refine ⟨fun name object hobject => ?_, h.tasks⟩
        obtain ⟨was, hwas, rfl⟩ := Option.map_eq_some_iff.mp hobject
        exact h.objects name was hwas
      exact hsynced.setTask t _ fun other hother => h.tasks t other (by rw [hphase]; exact hother)
    · next bytes hphase =>
      obtain rfl := Option.some.inj hstep
      exact h.setTask t _ fun other hother => h.tasks t other (by rw [hphase]; exact hother)
    · cases hstep
  | fail t =>
    obtain rfl := Option.some.inj hstep
    exact h.setTask t _ fun other hother => by cases hother
  | writeBack => exact Option.some.inj hstep ▸ ⟨h.objects, h.tasks⟩
  | lose left keeps =>
    rw [Objects.step] at hstep
    split at hstep
    · obtain rfl := Option.some.inj hstep
      refine ⟨fun name object hobject => ?_, fun t bytes hbytes => by cases hbytes⟩
      obtain ⟨was, hwas, hafter⟩ := Option.bind_eq_some_iff.mp hobject
      rcases after_bytes hafter with hsame | hleft
      · rw [hsame]
        exact h.objects name was hwas
      · exact hwrites name object.bytes hleft
    · obtain rfl := Option.some.inj hstep
      exact ⟨fun name object hobject => (by cases hobject), fun t bytes hbytes => by cases hbytes⟩

theorem Has.get (h : Has w.objects name bytes flushed named) :
    w.get hash name = if hash bytes = name then .ok bytes else .error (.corrupt name (hash bytes)) := by
  obtain ⟨object, hobject, rfl, -⟩ := h
  rw [World.get, hobject]

/-- **What a synced put linked lasts**, in a directory that is on disk itself: once the put answered, the
    bytes are read back under their hash after any acts, power losses among them. -/
theorem put_lasts {start : World κ β} (hstart : Start start)
    (hreach : Machine.Reached (step hash) Machine.Free start w)
    (hdone : w.tasks t = .answered bytes .synced true) (hdirectory : w.directory = some true)
    (hrun : Machine.Reached (step hash) Machine.Free w w') : w'.get hash (hash bytes) = .ok bytes := by
  have hmine : Has w.objects (hash bytes) bytes true true := by
    have hrelies := Inv.reached hstart hreach t
    rw [hdone] at hrelies
    exact hrelies
  have hlasts := @Machine.Reached.invariant _ _ _ _ _
    (fun v => v.directory = some true ∧ Has v.objects (hash bytes) bytes true true) _ hrun
    ⟨hdirectory, hmine⟩ fun v act v' hv _ hstep =>
      ⟨directory_step hv.1 hstep, hv.2.step hstep (.inr ⟨hv.1, rfl, rfl⟩)⟩
  rw [hlasts.2.get, if_pos rfl]

/-- **What a put answered for is found** while the power stays: its own bytes where it linked them, or where
    no power was lost before; else what a loss left may have the name.  No two of the bytes written have
    one hash. -/
theorem objects_found {known : β → Prop} (hinjective : Set.InjOn hash known) {start : World κ β}
    (hstart : Start start) (hknown : ∀ name object, start.objects name = some object → known object.bytes)
    (hwhole : Whole hash start) (hreach : Machine.Reached (step hash) (Writes known) start w)
    {durability : Durability} {created : Bool} (hdone : w.tasks t = .answered bytes durability created)
    (hrun : Machine.Reached (step hash) Powered w w') :
    (created = true ∨ Machine.Reached (step hash) Powered start w → w'.get hash (hash bytes) = .ok bytes) ∧
      (w'.get hash (hash bytes) = .ok bytes ∨
        created = false ∧ ∃ found, w'.get hash (hash bytes) = .error (.corrupt (hash bytes) found)) := by
  have hmine := Inv.reached hstart (hreach.mono fun _ _ _ => trivial) t
  have hknows : Knows known w := hreach.invariant
    ⟨hknown, fun t other hother => by rw [hstart t] at hother; cases hother⟩
    fun _ _ _ hs hwrites hstep => hs.step hwrites hstep
  have hbytes : known bytes := hknows.tasks t bytes (by rw [hdone]; rfl)
  rw [hdone] at hmine
  cases created with
  | true =>
    have hfound : w'.get hash (hash bytes) = _ := (Has.run hmine hrun).get
    rw [if_pos rfl] at hfound
    exact ⟨fun _ => hfound, .inl hfound⟩
  | false =>
    obtain ⟨found, hmine⟩ := hmine
    have hfound : w'.get hash (hash bytes) = _ := (hmine.run hrun).get
    obtain ⟨object, hobject, rfl, -⟩ := hmine
    have hown : hash object.bytes = hash bytes → object.bytes = bytes :=
      hinjective (hknows.objects _ object hobject) hbytes
    refine ⟨fun h => ?_, ?_⟩
    · obtain hpowered | hpowered := h
      · cases hpowered
      · have hsame := hwhole.run hpowered _ object hobject
        rw [hfound, if_pos hsame, hown hsame]
    · by_cases hsame : hash object.bytes = hash bytes
      · exact .inl (by rw [hfound, if_pos hsame, hown hsame])
      · exact .inr ⟨rfl, hash object.bytes, by rw [hfound, if_neg hsame]⟩

end

/-! ## One run -/

/-- A store whose directory is there, its own entry on disk or not. -/
def noObjects (onDisk : Bool) : World Nat Nat := ⟨some onDisk, fun _ => none, fun _ => .idle⟩

/-- The last digit of a number: a hash that tells no two numbers below ten apart. -/
def lastDigit (n : Nat) : Nat := n % 10

/-- Two puts of the same bytes at once, and a power loss once the synced one answered. -/
theorem put_lasts_lost : ∃ w w' : World Nat Nat, w.tasks 0 = .answered 7 .synced true ∧
    step lastDigit w (.lose (fun _ => none) false) = some w' ∧ w'.get lastDigit 7 = .ok 7 := by
  obtain ⟨w, hreach, hdone⟩ := Machine.exists_reached (step lastDigit) Machine.Free (noObjects true)
    [.put 0 7 .synced, .put 1 7 .atomic, .link 0, .link 1, .answer 0]
    (fun w => w.tasks 0 = .answered 7 .synced true ∧ w.directory = some true) (by decide)
  obtain ⟨hanswered, hdirectory⟩ := of_decide_eq_true hdone
  obtain ⟨w', hlost⟩ : ∃ w', step lastDigit w (.lose (fun _ => none) false) = some w' :=
    ⟨_, if_pos (.inl hdirectory)⟩
  exact ⟨w, w', hanswered, hlost, @put_lasts _ _ _ lastDigit w w' 0 7 _ (fun _ => rfl) hreach hanswered
    hdirectory (.snoc _ .refl trivial hlost)⟩

/-- A put whose name a loss left with other bytes. -/
theorem objects_found_spoiled : ∃ w : World Nat Nat, w.tasks 1 = .answered 7 .synced false ∧
    ∃ found, w.get lastDigit 7 = .error (.corrupt 7 found) := by
  obtain ⟨w, hreach, hdone, hread⟩ : ∃ w, Machine.Reached (step lastDigit) (Writes (· < 10))
      (noObjects false) w ∧ w.tasks 1 = .answered 7 .synced false ∧ w.get lastDigit 7 ≠ .ok 7 :=
    ⟨_, .snoc (.link 1) (.snoc (.put 1 7 .synced) (.snoc (.lose (fun _ => some 3) true) (.snoc (.answer 0)
      (.snoc (.link 0) (.snoc (.put 0 7 .atomic) .refl (show 7 < 10 by decide) rfl) trivial rfl)
      trivial rfl) (fun _ bytes h => (by rw [← Option.some.inj h]; decide)) rfl)
      (show 7 < 10 by decide) rfl) trivial rfl, rfl, fun h => by cases h⟩
  have hinjective : Set.InjOn lastDigit (· < 10) := fun a ha b hb h => by
    rwa [lastDigit, lastDigit, Nat.mod_eq_of_lt ha, Nat.mod_eq_of_lt hb] at h
  have hfound := (objects_found hinjective (fun _ => rfl) (fun _ _ h => by cases h)
    (fun _ _ h => by cases h) hreach hdone .refl).2
  exact ⟨w, hdone, (hfound.resolve_left hread).2⟩

/-- A directory whose own entry was never written back takes a synced object with it. -/
example : (Machine.run (step lastDigit) Machine.Free (noObjects false)
    [.put 0 7 .synced, .link 0, .answer 0, .lose (fun _ => none) false]).map (fun w => (w.objects 7).isSome) =
      some false := by decide

end Yunta.Objects
