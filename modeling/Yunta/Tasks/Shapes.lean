/-
  The rules that make a plan's shapes, decisions and changes mean what they say.

  1. **Waiting** — `waitsFor` is every pair of a task and one it waits for, directly or through
     others; over a document that declares each task once it is the closure of `depends_on`
     (`mem_waitsFor_iff`).

  2. **The check** — `Owned.check`: a name declared twice, an owner nobody declares, a shape or a
     change outside its task's scope, and a shape used by a task that does not wait for its owner.

  3. **What passing says** — `Owned.owner_waited`: in a document the check finds nothing broken in,
     a task waits for the owner of every shape it uses and does not own.
-/
import Yunta.Lib.Visit
import Yunta.Tasks.Document

set_option linter.unusedVariables false

namespace Yunta.Owned

open Relation (ReflTransGen TransGen)

/-! ## Waiting -/

/-- What the last task under `id` depends on. -/
def depends (tasks : List Task) (id : TaskId) : List TaskId :=
  ((tasks.reverse.find? (·.id = id)).map (·.dependsOn)).getD []

/-- Enough for every push a visit makes from `task`. -/
def fuel (tasks : List Task) (task : Task) : Nat :=
  task.dependsOn.length + Visit.pushes (depends tasks) (tasks.map (·.id)) []

/-- Every `(task, earlier)` pair where `task` waits, directly or through others, for `earlier`.  A
    pair names its task, so one task's visit leaves out none of another's. -/
def waitsFor (tasks : List Task) : List (TaskId × TaskId) :=
  tasks.flatMap fun task =>
    (Visit.visit (depends tasks) (fuel tasks task) task.dependsOn.reverse []).map (task.id, ·)

/-- A task that depends on something is one of the document. -/
theorem depends_declared {tasks : List Task} {id : TaskId} (h : depends tasks id ≠ []) :
    id ∈ tasks.map (·.id) := by
  unfold depends at h
  cases hfind : tasks.reverse.find? (·.id = id) with
  | none =>
    rw [hfind] at h
    exact absurd rfl h
  | some task =>
    have hid : task.id = id := by simpa using List.find?_some hfind
    have hmem : task ∈ tasks := List.mem_reverse.mp (List.mem_of_find?_eq_some hfind)
    exact List.mem_map.mpr ⟨task, hmem, hid⟩

/-- **A pair is a task and what is reached from its own dependencies.** -/
theorem mem_waitsFor {tasks : List Task} {id earlier : TaskId} :
    (id, earlier) ∈ waitsFor tasks ↔ ∃ task ∈ tasks, task.id = id ∧
      ∃ dep ∈ task.dependsOn, ReflTransGen (Visit.Next (depends tasks)) dep earlier := by
  have hvisit : ∀ task : Task,
      earlier ∈ Visit.visit (depends tasks) (fuel tasks task) task.dependsOn.reverse [] ↔
        ∃ dep ∈ task.dependsOn, ReflTransGen (Visit.Next (depends tasks)) dep earlier := by
    intro task
    have hfuel : task.dependsOn.reverse.length +
        Visit.pushes (depends tasks) (tasks.map (·.id)) [] ≤ fuel tasks task := by
      rw [List.length_reverse]
      exact Nat.le_refl _
    rw [Visit.mem_visit (depends tasks) _ (fun _ => depends_declared) hfuel]
    simp only [List.mem_reverse]
  simp only [waitsFor, List.mem_flatMap, List.mem_map, Prod.mk.injEq]
  constructor
  · rintro ⟨task, htask, dep, hdep, rfl, rfl⟩
    exact ⟨task, htask, rfl, (hvisit task).mp hdep⟩
  · rintro ⟨task, htask, rfl, hreach⟩
    exact ⟨task, htask, earlier, (hvisit task).mpr hreach, rfl, rfl⟩

/-- In a document that declares each task once, what comes next from a task is what it depends
    on. -/
theorem next_iff {document : TasksFile} (h : document.DeclaredOnce) {id dep : TaskId} :
    Visit.Next (depends document.tasks) id dep ↔ document.DependsOn id dep := by
  unfold Visit.Next depends
  constructor
  · cases hfind : document.tasks.reverse.find? (·.id = id) with
    | none =>
      intro hdep
      exact absurd hdep List.not_mem_nil
    | some task =>
      intro hdep
      have hid : task.id = id := by simpa using List.find?_some hfind
      exact ⟨task, List.mem_reverse.mp (List.mem_of_find?_eq_some hfind), hid, hdep⟩
  · rintro ⟨task, htask, rfl, hdep⟩
    cases hfind : document.tasks.reverse.find? (·.id = task.id) with
    | none =>
      have hnone := List.find?_eq_none.mp hfind task (List.mem_reverse.mpr htask)
      simp at hnone
    | some other =>
      have hid : other.id = task.id := by simpa using List.find?_some hfind
      have hother := List.mem_reverse.mp (List.mem_of_find?_eq_some hfind)
      obtain rfl := TasksFile.eq_of_id h hother htask hid
      exact hdep

/-- **The pairs are the closure of `depends_on`.** -/
theorem mem_waitsFor_iff {document : TasksFile} (h : document.DeclaredOnce) {id earlier : TaskId} :
    (id, earlier) ∈ waitsFor document.tasks ↔ TransGen document.DependsOn id earlier := by
  have hnext : Visit.Next (depends document.tasks) = document.DependsOn :=
    funext fun a => funext fun b => propext (next_iff h)
  rw [mem_waitsFor, hnext, Relation.TransGen.head'_iff]
  constructor
  · rintro ⟨task, htask, rfl, dep, hdep, hreach⟩
    exact ⟨dep, ⟨task, htask, rfl, hdep⟩, hreach⟩
  · rintro ⟨dep, ⟨task, htask, rfl, hdep⟩, hreach⟩
    exact ⟨task, htask, rfl, dep, hdep, hreach⟩

/-! ## The check -/

inductive TaskFault where
  | duplicateShape (shape : String)
  | duplicateDecision (decision : String)
  | unknownShapeOwner (shape : String) (owner : TaskId)
  | shapeOutsideOwnerScope (shape file : String) (owner : TaskId) (unreadable : Option String)
  | unknownShape (shape : String)
  | shapeUsedBeforeItsOwner (shape : String) (owner : TaskId)
  | changeOutsideScope (file : String) (unreadable : Option String)
  deriving DecidableEq

/-- What a fault is found in: the document, or a task of it by its id and its place. -/
inductive Subject where
  | document
  | task (id : TaskId) (index : Nat)
  deriving DecidableEq

structure Diagnostic where
  subject : Subject
  fault : TaskFault
  deriving DecidableEq

def ofTask (index : Nat) (task : Task) (fault : TaskFault) : Diagnostic :=
  ⟨.task task.id index, fault⟩

/-- Each name that stands before itself in the list, once for each time it comes again. -/
def again (names : List String) : List String :=
  (names.zipIdx.filter fun (name, index) => (names.take index).contains name).map (·.1)

/-- A shape named twice, or a decision given an id twice. -/
def duplicates (document : TasksFile) : List Diagnostic :=
  ((again (document.shapes.map (·.name))).map fun shape => ⟨.document, .duplicateShape shape⟩) ++
    (again (document.decisions.map (·.id))).map fun id => ⟨.document, .duplicateDecision id⟩

section Covers

-- whether a glob selects a path, and what building a set of globs reports when it does not build
variable (selects : ScopeGlob → String → Bool) (unbuilt : List ScopeGlob → Option String)

/-- Whether `task`'s scope lets it write `file`; a scope that does not compile into one set cannot
    say, and that error is the answer. -/
def covers (task : Task) (file : String) : Except String Bool :=
  match unbuilt task.scope with
  | some error => .error error
  | none => .ok (task.scope.any (selects · file))

/-- What keeps `file` out of the task's scope: the report of a scope that does not compile, or
    nothing more than that no glob covers it. -/
def outside (task : Task) (file : String) : Option (Option String) :=
  match covers selects unbuilt task file with
  | .ok true => none
  | .ok false => some none
  | .error error => some (some error)

/-- A shape whose owner nobody declared, or whose file its owner may not touch. -/
def owners (document : TasksFile) : List Diagnostic :=
  document.shapes.flatMap fun shape =>
    match document.tasks.find? (·.id = shape.owner) with
    | none => [⟨.document, .unknownShapeOwner shape.name shape.owner⟩]
    | some owner =>
      ((outside selects unbuilt owner shape.file).map fun unreadable =>
        ⟨.document, .shapeOutsideOwnerScope shape.name shape.file shape.owner unreadable⟩).toList

/-- The owner of the last shape of that name. -/
def ownerOf (document : TasksFile) (shape : String) : Option TaskId :=
  (document.shapes.reverse.find? (·.name = shape)).map (·.owner)

/-- A shape a task uses that nobody declared, or whose owner the task does not wait for. -/
def uses (document : TasksFile) : List Diagnostic :=
  document.tasks.zipIdx.flatMap fun (task, index) =>
    task.uses.flatMap fun name =>
      match ownerOf document name with
      | none => [ofTask index task (.unknownShape name)]
      | some owner =>
        if owner ≠ task.id ∧ (task.id, owner) ∉ waitsFor document.tasks then
          [ofTask index task (.shapeUsedBeforeItsOwner name owner)]
        else []

/-- A change a task declares in a file its scope does not cover. -/
def changes (index : Nat) (task : Task) : List Diagnostic :=
  task.changes.filterMap fun change =>
    (outside selects unbuilt task change.file).map fun unreadable =>
      ofTask index task (.changeOutsideScope change.file unreadable)

/-- Every violation of these rules the document carries. -/
def check (document : TasksFile) : List Diagnostic :=
  duplicates document ++ owners selects unbuilt document ++ uses document ++
    document.tasks.zipIdx.flatMap fun (task, index) => changes selects unbuilt index task

end Covers

/-! ## What passing says -/

/-- A list no name comes again in has no duplicates. -/
theorem nodup_of_again {names : List String} (h : again names = []) : names.Nodup := by
  rw [again, List.map_eq_nil_iff, List.filter_eq_nil_iff] at h
  refine List.nodup_iff_getElem?_ne_getElem?.mpr fun i j hij hj heq => ?_
  rw [List.getElem?_eq_getElem hj, List.getElem?_eq_getElem (by omega), Option.some.injEq] at heq
  have hmem : (names[j], j) ∈ names.zipIdx := by
    rw [List.mem_zipIdx_iff_getElem?]
    exact List.getElem?_eq_getElem hj
  refine h _ hmem ?_
  simp only [List.contains_iff_mem]
  rw [← heq]
  exact List.mem_take_iff_getElem.mpr ⟨i, by omega, rfl⟩

/-- In a document that declares each shape once, a shape's owner is the one looked up. -/
theorem ownerOf_shape {document : TasksFile} (h : duplicates document = []) {shape : Shape}
    (hshape : shape ∈ document.shapes) : ownerOf document shape.name = some shape.owner := by
  have hnodup : (document.shapes.map (·.name)).Nodup := by
    refine nodup_of_again ?_
    have hshapes := (List.append_eq_nil_iff.mp h).1
    exact List.map_eq_nil_iff.mp hshapes
  unfold ownerOf
  cases hfind : document.shapes.reverse.find? (·.name = shape.name) with
  | none =>
    have hnone := List.find?_eq_none.mp hfind shape (List.mem_reverse.mpr hshape)
    simp at hnone
  | some other =>
    have hname : other.name = shape.name := by simpa using List.find?_some hfind
    have hother := List.mem_reverse.mp (List.mem_of_find?_eq_some hfind)
    obtain rfl := List.inj_on_of_nodup_map hnodup hother hshape hname
    rfl

/-- **A task waits for the owners of what it uses**, in a document nothing is broken in. -/
theorem owner_waited {document : TasksFile} (hdeclared : document.DeclaredOnce)
    (hduplicates : duplicates document = []) (huses : uses document = []) {task : Task}
    (htask : task ∈ document.tasks) {shape : Shape} (hshape : shape ∈ document.shapes)
    (hused : shape.name ∈ task.uses) (hother : shape.owner ≠ task.id) :
    TransGen document.DependsOn task.id shape.owner := by
  obtain ⟨index, hindex⟩ := List.mem_iff_getElem?.mp htask
  have hnone := List.flatMap_eq_nil_iff.mp huses (task, index)
    (List.mem_zipIdx_iff_getElem?.mpr hindex)
  have hname := List.flatMap_eq_nil_iff.mp hnone shape.name hused
  rw [ownerOf_shape hduplicates hshape] at hname
  by_contra hwaits
  rw [← mem_waitsFor_iff hdeclared] at hwaits
  have hfault : (if shape.owner ≠ task.id ∧ (task.id, shape.owner) ∉ waitsFor document.tasks then
      [ofTask index task (.shapeUsedBeforeItsOwner shape.name shape.owner)] else []) = [] := hname
  rw [if_pos ⟨hother, hwaits⟩] at hfault
  exact List.cons_ne_nil _ _ hfault

end Yunta.Owned
