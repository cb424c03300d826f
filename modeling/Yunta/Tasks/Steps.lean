/-
  The steps a plan's tasks run in, as any reader of the plan is told them.

  1. **One task** — `stepOf` reads a task's step off the steps of the tasks it waits on, remembering
     each one it has read.  The rules of the document refuse a cycle before anyone orders it, so the
     bound on its recursion is never reached (`stepOf_spec`).

  2. **The plan** — `steps` puts each task in its own step, in document order.

  3. **Main result** — `steps_layering`: every task stands in exactly one step, no step is empty, and
     a task's step is just past the latest of the tasks it waits on.
-/
import Yunta.Lib.Layers
import Yunta.Lib.OrdMap
import Yunta.Tasks.Document

set_option linter.unusedVariables false

namespace Yunta

open Layers (Layering layersBy past)

namespace TasksFile

/-! ## One task -/

/-- The tasks `task` waits on, in the order it names them. -/
def waitsOn (file : TasksFile) (task : Task) : List Task :=
  task.dependsOn.filterMap fun id => file.tasks.find? (·.id = id)

/-- One more task waited on: the step after its own joins those read, with what is known by then. -/
def readStep (step : Task → OrdMap TaskId Nat → Nat × OrdMap TaskId Nat)
    (read : List Nat × OrdMap TaskId Nat) (before : Task) : List Nat × OrdMap TaskId Nat :=
  let found := step before read.2
  (read.1 ++ [found.1 + 1], found.2)

/-- The step `task` runs in, and what is known of steps by then: one after the latest of the tasks it
    waits on.  `left` is how much deeper the source's `seen` still lets the recursion go. -/
def stepOf (file : TasksFile) : Nat → Task → OrdMap TaskId Nat → Nat × OrdMap TaskId Nat
  | left, task, depth =>
    match depth[task.id]? with
    | some known => (known, depth)
    | none =>
      match left with
      | 0 => (0, depth)
      | left + 1 =>
        let read := (file.waitsOn task).foldl (readStep (stepOf file left)) ([], depth)
        let at_ := read.1.max?.getD 0
        (at_, read.2.insert task.id at_)

/-- A task put in its step. -/
def place (file : TasksFile) (laid : List (List Task) × OrdMap TaskId Nat) (task : Task) :
    List (List Task) × OrdMap TaskId Nat :=
  let step := stepOf file (file.tasks.length + 1) task laid.2
  let steps :=
    if laid.1.length ≤ step.1 then
      laid.1 ++ List.replicate (step.1 + 1 - laid.1.length) []
    else laid.1
  (steps.modify step.1 (· ++ [task]), step.2)

/-- The tasks of each step, in document order: the first step waits on nothing, and each later one on
    a task of the step before it. -/
def steps (file : TasksFile) : List (List Task) := (file.tasks.foldl file.place ([], ∅)).1

/-! ## What the recursion reads -/

section
variable {file : TasksFile}

theorem mem_waitsOn (hdeclared : file.DeclaredOnce) {task before : Task} :
    before ∈ file.waitsOn task ↔ before ∈ file.tasks ∧ before.id ∈ task.dependsOn := by
  rw [waitsOn, List.mem_filterMap]
  constructor
  · rintro ⟨id, hid, hfind⟩
    have heq : before.id = id := by simpa using List.find?_some hfind
    exact ⟨List.mem_of_find?_eq_some hfind, heq ▸ hid⟩
  · rintro ⟨hmem, hid⟩
    refine ⟨before.id, hid, ?_⟩
    have hsome : (file.tasks.find? fun other => other.id = before.id).isSome = true :=
      List.find?_isSome.mpr ⟨before, hmem, by simp⟩
    obtain ⟨found, hfind⟩ := Option.isSome_iff_exists.mp hsome
    have hsame : found.id = before.id := by simpa using List.find?_some hfind
    rw [hfind, eq_of_id hdeclared (List.mem_of_find?_eq_some hfind) hmem hsame]

theorem waitsOn_mem {task before : Task} (h : before ∈ file.waitsOn task) :
    before ∈ file.tasks := by
  obtain ⟨id, -, hfind⟩ := List.mem_filterMap.mp h
  exact List.mem_of_find?_eq_some hfind

theorem dependsOn_of_waitsOn {task before : Task} (htask : task ∈ file.tasks)
    (h : before ∈ file.waitsOn task) : file.DependsOn task.id before.id := by
  obtain ⟨id, hid, hfind⟩ := List.mem_filterMap.mp h
  have heq : before.id = id := by simpa using List.find?_some hfind
  exact ⟨task, htask, rfl, heq ▸ hid⟩

/-- Where no id waits on itself, no task does. -/
theorem acyclic_waitsOn (hacyclic : file.Acyclic) :
    Precedence.Acyclic fun a b => b ∈ file.waitsOn a := by
  have hpath : ∀ a b, Relation.TransGen (fun a b => b ∈ file.waitsOn a) a b →
      b ∈ file.tasks ∧ (a ∈ file.tasks → Relation.TransGen file.DependsOn a.id b.id) := by
    intro a b h
    induction h with
    | single hab => exact ⟨waitsOn_mem hab, fun ha => .single (dependsOn_of_waitsOn ha hab)⟩
    | tail _ hbc ih =>
      exact ⟨waitsOn_mem hbc, fun ha => (ih.2 ha).tail (dependsOn_of_waitsOn ih.1 hbc)⟩
  intro task hcycle
  obtain ⟨hmem, hids⟩ := hpath task task hcycle
  exact hacyclic task.id (hids hmem)

/-- The step a task runs in. -/
def depthOf (file : TasksFile) (task : Task) : Nat :=
  Layers.depth file.waitsOn (file.tasks.length + 1) task

theorem depthOf_eq (hacyclic : file.Acyclic) (task : Task) :
    file.depthOf task = past ((file.waitsOn task).map file.depthOf) :=
  Layers.depth_eq (acyclic_waitsOn hacyclic) (fun a b hb => waitsOn_mem hb) task

/-- What is known of steps is right. -/
def Known (file : TasksFile) (depth : OrdMap TaskId Nat) : Prop :=
  ∀ task ∈ file.tasks, ∀ known, depth[task.id]? = some known → known = file.depthOf task

theorem known_insert (hdeclared : file.DeclaredOnce) {depth : OrdMap TaskId Nat}
    (h : file.Known depth) {task : Task} (htask : task ∈ file.tasks) :
    file.Known (depth.insert task.id (file.depthOf task)) := by
  intro other hother known hknown
  rw [OrdMap.getElem?_insert_eq] at hknown
  split at hknown
  · next hid =>
    rw [eq_of_id hdeclared hother htask hid.symm]
    exact (Option.some.inj hknown).symm
  · exact h other hother known hknown

/-- The latest of what comes after each of several steps is one past the furthest of them. -/
theorem max?_after (below : List Nat) : (below.map (· + 1)).max?.getD 0 = past below := by
  refine Nat.le_antisymm ?_ (Layers.past_le.mpr fun k hk => ?_)
  · cases hmax : (below.map (· + 1)).max? with
    | none => exact Nat.zero_le _
    | some top =>
      obtain ⟨k, hk, rfl⟩ := List.mem_map.mp (List.max?_eq_some_iff.mp hmax).1
      exact Layers.lt_past hk
  · have hmem : k + 1 ∈ below.map (· + 1) := List.mem_map_of_mem hk
    cases hmax : (below.map (· + 1)).max? with
    | none => rw [List.max?_eq_none_iff.mp hmax] at hmem; cases hmem
    | some top => exact (List.max?_eq_some_iff.mp hmax).2 _ hmem

/-- The walk over what a task waits on reads the step after each one's own. -/
theorem foldl_readStep {step : Task → OrdMap TaskId Nat → Nat × OrdMap TaskId Nat}
    {befores : List Task} (hstep : ∀ before ∈ befores, ∀ depth, file.Known depth →
      (step before depth).1 = file.depthOf before ∧ file.Known (step before depth).2)
    (read : List Nat × OrdMap TaskId Nat) (h : file.Known read.2) :
    (befores.foldl (readStep step) read).1 =
        read.1 ++ (befores.map file.depthOf).map (· + 1) ∧
      file.Known (befores.foldl (readStep step) read).2 := by
  induction befores generalizing read with
  | nil => exact ⟨by simp, h⟩
  | cons before befores ih =>
    obtain ⟨hread, hgood⟩ := hstep before List.mem_cons_self read.2 h
    obtain ⟨hrest, hkept⟩ := ih (fun b hb => hstep b (List.mem_cons_of_mem _ hb))
      (readStep step read before) hgood
    refine ⟨?_, hkept⟩
    rw [List.foldl_cons, hrest]
    simp [readStep, hread]

/-- **One task's step**: with room for what lies behind the task, it is one past the furthest of the
    tasks it waits on, and what is known stays right. -/
theorem stepOf_spec (hdeclared : file.DeclaredOnce) (hacyclic : file.Acyclic) {left : Nat}
    {task : Task} {depth : OrdMap TaskId Nat} (htask : task ∈ file.tasks) (h : file.Known depth)
    (hleft : Layers.behind file.waitsOn file.tasks task < left) :
    (file.stepOf left task depth).1 = file.depthOf task ∧
      file.Known (file.stepOf left task depth).2 := by
  induction left generalizing task depth with
  | zero => omega
  | succ left ih =>
    rw [stepOf]
    cases hknown : depth[task.id]? with
    | some known => exact ⟨h task htask known hknown, h⟩
    | none =>
      have hbefores : ∀ before ∈ file.waitsOn task, ∀ depth, file.Known depth →
          (file.stepOf left before depth).1 = file.depthOf before ∧
            file.Known (file.stepOf left before depth).2 := by
        intro before hbefore depth hdepth
        have hlt := Layers.behind_lt (acyclic_waitsOn hacyclic) (fun a b hb => waitsOn_mem hb) hbefore
        exact ih (waitsOn_mem hbefore) hdepth (by omega)
      obtain ⟨hread, hkept⟩ := foldl_readStep hbefores ([], depth) h
      have hat : ((file.waitsOn task).foldl (readStep (file.stepOf left)) ([], depth)).1.max?.getD 0 =
          file.depthOf task := by
        rw [hread, List.nil_append, max?_after, ← depthOf_eq hacyclic]
      refine ⟨hat, ?_⟩
      show file.Known (Std.ExtTreeMap.insert _ task.id _)
      rw [hat]
      exact known_insert hdeclared hkept htask

/-! ## The plan -/

/-- **Placing tasks** lays them out by the steps they run in. -/
theorem foldl_place (hdeclared : file.DeclaredOnce) (hacyclic : file.Acyclic) {tasks : List Task}
    (htasks : ∀ task ∈ tasks, task ∈ file.tasks) :
    (tasks.foldl file.place ([], ∅)).1 = layersBy file.depthOf tasks ∧
      file.Known (tasks.foldl file.place ([], ∅)).2 := by
  induction tasks using List.reverseRecOn with
  | nil => exact ⟨rfl, fun task htask known hknown => by simp at hknown⟩
  | append_singleton tasks task ih =>
    obtain ⟨hlaid, hgood⟩ := ih fun t ht => htasks t (List.mem_append_left _ ht)
    have htask : task ∈ file.tasks := htasks task (by simp)
    have hbehind : Layers.behind file.waitsOn file.tasks task < file.tasks.length + 1 :=
      Nat.lt_succ_of_le (Layers.behind_le task)
    obtain ⟨hstep, hkept⟩ := stepOf_spec hdeclared hacyclic htask hgood hbehind
    rw [List.foldl_append]
    refine ⟨?_, hkept⟩
    show List.modify (if _ then _ else _) _ _ = _
    rw [hstep, hlaid, Layers.layersBy_snoc]
    split
    · rfl
    · next hlong =>
      have hnone : file.depthOf task + 1 - (layersBy file.depthOf tasks).length = 0 := by omega
      rw [hnone, List.replicate_zero, List.append_nil]

theorem steps_eq (hdeclared : file.DeclaredOnce) (hacyclic : file.Acyclic) :
    file.steps = layersBy file.depthOf file.tasks :=
  (foldl_place hdeclared hacyclic fun _ h => h).1

end

/-- **A plan's steps are a complete layering**: each task stands in one of them once, none is empty,
    whatever a task waits on stands in an earlier one, and past the first step each task waits on a
    task of the step just before its own. -/
theorem steps_layering (file : TasksFile) (hdeclared : file.DeclaredOnce)
    (hacyclic : file.Acyclic) :
    Layering (fun task before : Task => before.id ∈ task.dependsOn) file.tasks file.steps := by
  rw [steps_eq hdeclared hacyclic]
  refine Layers.layering_layersBy fun task htask => ?_
  rw [depthOf_eq hacyclic]
  refine Layers.past_congr fun k => ?_
  simp only [List.mem_map, List.mem_filter, decide_eq_true_eq, mem_waitsOn hdeclared]

/-- Four tasks, the last of which waits on two that wait on the first; the plan names them in the
    other order. -/
def diamondPlan : TasksFile where
  tasks := [⟨"d", [], [], ["b", "a"], [], []⟩, ⟨"c", [], [], [], [], []⟩,
    ⟨"b", [], [], ["a"], [], []⟩, ⟨"a", [], [], [], [], []⟩]

theorem steps_layering_diamond :
    Layering (fun task before : Task => before.id ∈ task.dependsOn) diamondPlan.tasks
        diamondPlan.steps ∧
      diamondPlan.steps.map (·.map (·.id)) = [["c", "a"], ["b"], ["d"]] := by
  have hacyclic : diamondPlan.Acyclic := by
    refine acyclic_of_rank (fun id => if id = "d" then 2 else if id = "b" then 1 else 0) ?_
    decide
  exact ⟨steps_layering diamondPlan (by decide) hacyclic, by decide +kernel⟩

end TasksFile

end Yunta
