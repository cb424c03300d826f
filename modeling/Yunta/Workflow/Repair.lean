/-
  What an audit of a workflow's keys should hand on, and when one round of it is enough.

  1. **Roles** — a mapping is read as a workflow, a node, or an entry of one of their lists.  Its role
     says which keys it accepts, as what each of its keys is read, and what lies under each.

  2. **A repair** — `Repairs`: the entries are those the mapping had, in their order, each key nothing
     reads taken out or read as the key it meant; each value is kept whole, under the key it was
     written under or that key's meaning.

  3. **One round** — a document is `Clean` when no mapping met in it has a key to refuse.  The crux is
     `clean_repaired_iff`: a repair is clean exactly where every list under a misspelled key is.
-/
import Mathlib.Logic.Relation
import Yunta.Workflow.Audit

set_option linter.unusedVariables false

namespace Yunta.WorkflowAudit

open Yunta.Yaml Relation

variable (edits : String → String → Nat)

/-! ## Roles -/

/-- What a mapping is read as. -/
inductive Role where
  | workflow
  | node
  | source
  | file
  | reference (claimed : List String)
  | mount
  | step
  deriving DecidableEq

/-- What lies under a key: a value nothing is judged in, a kind, a mapping, or a list of them. -/
inductive Inner where
  | plain
  | kind (near : String)
  | one (role : Role)
  | list (role : Role)

abbrev Entries := List (Value × Value)

/-- The kind a node is read as: the one it writes, or the one a slip in it most likely meant. -/
def readKind (m : Entries) : Option String :=
  match writtenKind m with
  | none => none
  | some written => if (kindKeys written).isSome then some written else nearest edits written kinds

namespace Role

/-- The keys a mapping accepts; none where its keys are left as they are. -/
def valid (role : Role) (m : Entries) : Option (List String) :=
  match role with
  | workflow => some workflowKeys
  | node => (readKind edits m).bind nodeKeys
  | source => if aliased m then none else some contextKeys
  | file => some contextFileKeys
  | reference claimed => some (claimed ++ artifactRefKeys)
  | mount => none
  | step => some onFinishKeys

/-- The key a key of the mapping is read as; none where it is taken out. -/
def readAs (role : Role) (m : Entries) (key : String) : Option String :=
  match role.valid edits m with
  | none => some key
  | some valid =>
    if valid.contains key then some key else meant edits key valid (Mapping.keys m)

/-- What lies under a key a node of `kind` accepts. -/
def innerOfNode (kind key : String) : Inner :=
  if kind = "parallel" ∧ key = "nodes" then .list node
  else if key = "context" then .list source
  else if kind = "workflow" ∧ key = "mounts" then .list mount
  else if key = tag then .kind kind
  else .plain

/-- What lies under a key the mapping accepts. -/
def inner (role : Role) (m : Entries) (key : String) : Inner :=
  match role with
  | workflow =>
    if key = "nodes" then .list node else if key = "on_finish" then .list step else .plain
  | node =>
    match readKind edits m with
    | none => .plain
    | some kind => innerOfNode kind key
  | source =>
    if aliased m then .plain
    else if key = "files" then .list file
    else if key = "artifact" then .one (reference contextArtifact) else .plain
  | mount => if key = "artifact" then .one (reference mountArtifact) else .plain
  | _ => .plain

/-- What is judged under `key`, read as `near`: nothing below a misspelled key, but in a source. -/
def under (role : Role) (m : Entries) (key near : String) : Inner :=
  if key = near ∨ role = source then role.inner edits m near else .plain

end Role

/-! ## A repair -/

mutual

/-- `m'` is `m` with the keys nothing reads taken out, or read as what they meant. -/
inductive Repairs : Role → Entries → Entries → Prop
  | mk {role : Role} {m m' : Entries} (entries : RepairsEntries role m m m') : Repairs role m m'

/-- The same of some entries of `m`, one after another. -/
inductive RepairsEntries : Role → Entries → Entries → Entries → Prop
  | nil {role : Role} {m : Entries} : RepairsEntries role m [] []
  | other {role : Role} {m rest rest' : Entries} {key v : Value} (hkey : key.asStr = none)
      (hrest : RepairsEntries role m rest rest') :
      RepairsEntries role m ((key, v) :: rest) ((key, v) :: rest')
  | read {role : Role} {m rest rest' : Entries} {key near : String} {v v' : Value}
      (hread : role.readAs edits m key = some near)
      (hvalue : RepairsValue (role.under edits m key near) v v')
      (hrest : RepairsEntries role m rest rest') :
      RepairsEntries role m ((.string key, v) :: rest) ((.string near, v') :: rest')
  | out {role : Role} {m rest rest' : Entries} {key : String} {v : Value}
      (hread : role.readAs edits m key = none) (hrest : RepairsEntries role m rest rest') :
      RepairsEntries role m ((.string key, v) :: rest) rest'

inductive RepairsValue : Inner → Value → Value → Prop
  | plain (v : Value) : RepairsValue .plain v v
  | kind (near : String) (v : Value) : RepairsValue (.kind near) v (.string near)
  | one {role : Role} {m m' : Entries} (h : Repairs role m m') :
      RepairsValue (.one role) (.mapping m) (.mapping m')
  | noMapping {role : Role} {v : Value} (h : ∀ m, v ≠ .mapping m) : RepairsValue (.one role) v v
  | list {role : Role} {items items' : List Value} (h : RepairsItems role items items') :
      RepairsValue (.list role) (.sequence items) (.sequence items')
  | noList {role : Role} {v : Value} (h : ∀ items, v ≠ .sequence items) :
      RepairsValue (.list role) v v

/-- Each item of a list that is a mapping repaired; one that wrote keys and is left with none may be
    taken out. -/
inductive RepairsItems : Role → List Value → List Value → Prop
  | nil {role : Role} : RepairsItems role [] []
  | kept {role : Role} {m m' : Entries} {rest rest' : List Value} (h : Repairs role m m')
      (hrest : RepairsItems role rest rest') :
      RepairsItems role (.mapping m :: rest) (.mapping m' :: rest')
  | out {role : Role} {m : Entries} {rest rest' : List Value} (h : Repairs role m [])
      (hrest : RepairsItems role rest rest') : RepairsItems role (.mapping m :: rest) rest'
  | other {role : Role} {v : Value} {rest rest' : List Value} (h : ∀ m, v ≠ .mapping m)
      (hrest : RepairsItems role rest rest') : RepairsItems role (v :: rest) (v :: rest')

end

/-! ## What a document holds -/

/-- A mapping and what it is read as. -/
abbrev Met := Role × Entries

/-- What is judged in a value. -/
inductive Under : Inner → Value → Met → Prop
  | one {role : Role} {m : Entries} : Under (.one role) (.mapping m) (role, m)
  | list {role : Role} {m : Entries} {items : List Value} (h : Value.mapping m ∈ items) :
      Under (.list role) (.sequence items) (role, m)

/-- A mapping holds another under one of its keys. -/
def Holds (y z : Met) : Prop :=
  ∃ key v near, (Value.string key, v) ∈ y.2 ∧ y.1.readAs edits y.2 key = some near ∧
    Under (y.1.under edits y.2 key near) v z

/-- A mapping is met on the way down from another. -/
abbrev Meets : Met → Met → Prop := ReflTransGen (Holds edits)

/-- Nothing in the mapping is refused: it accepts each key it writes, and its kind is one. -/
structure Tidy (y : Met) : Prop where
  keys : ∀ key ∈ Mapping.keys y.2, y.1.readAs edits y.2 key = some key
  kind : y.1 = .node → ∀ near, readKind edits y.2 = some near → writtenKind y.2 = some near

def Clean (y : Met) : Prop := ∀ z, Meets edits y z → Tidy edits z

/-- No two keys of the mapping are read as one. -/
def Alone (y : Met) : Prop :=
  ∀ key ∈ Mapping.keys y.2, ∀ other ∈ Mapping.keys y.2, ∀ near,
    y.1.readAs edits y.2 key = some near → y.1.readAs edits y.2 other = some near → key = other

/-- What is judged under the key a misspelled one is read as has nothing in it to refuse. -/
def Settled (y : Met) : Prop :=
  ∀ key v near, (Value.string key, v) ∈ y.2 → y.1.readAs edits y.2 key = some near →
    key ≠ near → y.1 ≠ .source → ∀ z, Under (y.1.inner edits y.2 near) v z → Clean edits z

variable {edits} {role : Role} {m m' : Entries}

theorem Clean.tidy {y : Met} (h : Clean edits y) : Tidy edits y := h y .refl

theorem Clean.held {y z : Met} (h : Clean edits y) (hz : Holds edits y z) : Clean edits z :=
  fun w hw => h w (.head hz hw)

theorem clean_iff {y : Met} :
    Clean edits y ↔ Tidy edits y ∧ ∀ z, Holds edits y z → Clean edits z := by
  refine ⟨fun h => ⟨h.tidy, fun z => h.held⟩, fun h w hw => ?_⟩
  rcases ReflTransGen.cases_head hw with rfl | ⟨z, hz, hzw⟩
  · exact h.1
  · exact h.2 z hz w hzw

theorem clean_nil (role : Role) : Clean edits (role, []) := by
  refine clean_iff.mpr ⟨⟨?_, ?_⟩, ?_⟩
  · intro key hkey
    cases hkey
  · intro _ near hnear
    cases hnear
  · rintro z ⟨key, v, near, hmem, -⟩
    cases hmem

/-! ## Keys read -/

/-- A key a mapping accepts is read as itself, and any other as one it accepts and does not write. -/
theorem Role.readAs_cases {valid : List String} (hvalid : role.valid edits m = some valid)
    {key near : String} (h : role.readAs edits m key = some near) :
    near ∈ valid ∧ (key = near ∨ near ∉ Mapping.keys m) := by
  rw [Role.readAs, hvalid] at h
  dsimp only at h
  split_ifs at h with hkey
  · cases h
    exact ⟨List.contains_iff_mem.mp hkey, .inl rfl⟩
  · obtain ⟨hnear, hnot⟩ := Option.filter_eq_some_iff.mp h
    exact ⟨nearest_mem hnear, .inr (by simpa using hnot)⟩

theorem Role.readAs_of_mem {valid : List String} (hvalid : role.valid edits m = some valid)
    {key : String} (h : key ∈ valid) : role.readAs edits m key = some key := by
  rw [Role.readAs, hvalid]
  exact if_pos (List.contains_iff_mem.mpr h)

theorem Role.under_self (key : String) : role.under edits m key key = role.inner edits m key :=
  if_pos (.inl rfl)

/-! ## What a repair keeps -/

theorem RepairsEntries.entry {l l' : Entries} (h : RepairsEntries edits role m l l')
    {key near : String} {v : Value} (hmem : (Value.string key, v) ∈ l)
    (hread : role.readAs edits m key = some near) :
    ∃ v', (Value.string near, v') ∈ l' ∧ RepairsValue edits (role.under edits m key near) v v' := by
  induction l generalizing l' with
  | nil => cases hmem
  | cons first rest ih =>
    cases h with
    | other hkey hrest =>
      rcases List.mem_cons.mp hmem with heq | hmem
      · cases heq
        cases hkey
      · obtain ⟨v', hv', hvalue⟩ := ih hrest hmem
        exact ⟨v', List.mem_cons_of_mem _ hv', hvalue⟩
    | read hread' hvalue hrest =>
      rcases List.mem_cons.mp hmem with heq | hmem
      · cases heq
        rw [hread] at hread'
        cases hread'
        exact ⟨_, List.mem_cons_self, hvalue⟩
      · obtain ⟨v', hv', hvalue⟩ := ih hrest hmem
        exact ⟨v', List.mem_cons_of_mem _ hv', hvalue⟩
    | out hread' hrest =>
      rcases List.mem_cons.mp hmem with heq | hmem
      · cases heq
        rw [hread] at hread'
        cases hread'
      · exact ih hrest hmem

/-- Every entry of a repair was written under a key read as its own. -/
theorem RepairsEntries.written {l l' : Entries} (h : RepairsEntries edits role m l l')
    {near : String} {v' : Value} (hmem : (Value.string near, v') ∈ l') :
    ∃ key v, (Value.string key, v) ∈ l ∧ role.readAs edits m key = some near ∧
      RepairsValue edits (role.under edits m key near) v v' := by
  induction l generalizing l' with
  | nil =>
    cases h
    cases hmem
  | cons first rest ih =>
    cases h with
    | other hkey hrest =>
      rcases List.mem_cons.mp hmem with heq | hmem
      · cases heq
        cases hkey
      · obtain ⟨key, v, hkv, hvalue⟩ := ih hrest hmem
        exact ⟨key, v, List.mem_cons_of_mem _ hkv, hvalue⟩
    | read hread hvalue hrest =>
      rcases List.mem_cons.mp hmem with heq | hmem
      · cases heq
        exact ⟨_, _, List.mem_cons_self, hread, hvalue⟩
      · obtain ⟨key, v, hkv, hvalue⟩ := ih hrest hmem
        exact ⟨key, v, List.mem_cons_of_mem _ hkv, hvalue⟩
    | out hread hrest =>
      obtain ⟨key, v, hkv, hvalue⟩ := ih hrest hmem
      exact ⟨key, v, List.mem_cons_of_mem _ hkv, hvalue⟩

/-- A mapping of a list is repaired in the list's repair, or left empty. -/
theorem RepairsItems.kept_or_empty {items items' : List Value}
    (h : RepairsItems edits role items items') (hmem : Value.mapping m ∈ items) :
    ∃ m', Repairs edits role m m' ∧ (Value.mapping m' ∈ items' ∨ m' = []) := by
  induction items generalizing items' with
  | nil => cases hmem
  | cons item rest ih =>
    cases h with
    | kept h hrest =>
      rcases List.mem_cons.mp hmem with heq | hmem
      · cases heq
        exact ⟨_, h, .inl List.mem_cons_self⟩
      · obtain ⟨m', hm', hin⟩ := ih hrest hmem
        exact ⟨m', hm', hin.imp_left (List.mem_cons_of_mem _)⟩
    | out h hrest =>
      rcases List.mem_cons.mp hmem with heq | hmem
      · cases heq
        exact ⟨_, h, .inr rfl⟩
      · exact ih hrest hmem
    | other h hrest =>
      rcases List.mem_cons.mp hmem with heq | hmem
      · exact absurd heq.symm (h _)
      · obtain ⟨m', hm', hin⟩ := ih hrest hmem
        exact ⟨m', hm', hin.imp_left (List.mem_cons_of_mem _)⟩

/-- Every mapping of a list's repair is the repair of one of the list. -/
theorem RepairsItems.written {items items' : List Value}
    (h : RepairsItems edits role items items') (hmem : Value.mapping m' ∈ items') :
    ∃ m, Value.mapping m ∈ items ∧ Repairs edits role m m' := by
  induction items generalizing items' with
  | nil =>
    cases h
    cases hmem
  | cons item rest ih =>
    cases h with
    | kept h hrest =>
      rcases List.mem_cons.mp hmem with heq | hmem
      · cases heq
        exact ⟨_, List.mem_cons_self, h⟩
      · obtain ⟨m, hin, hm⟩ := ih hrest hmem
        exact ⟨m, List.mem_cons_of_mem _ hin, hm⟩
    | out h hrest =>
      obtain ⟨m, hin, hm⟩ := ih hrest hmem
      exact ⟨m, List.mem_cons_of_mem _ hin, hm⟩
    | other h hrest =>
      rcases List.mem_cons.mp hmem with heq | hmem
      · exact absurd heq.symm (h _)
      · obtain ⟨m, hin, hm⟩ := ih hrest hmem
        exact ⟨m, List.mem_cons_of_mem _ hin, hm⟩

/-- What is judged in a value is repaired in its repair, or left empty. -/
theorem RepairsValue.kept_or_empty {i : Inner} {v v' : Value} (h : RepairsValue edits i v v')
    {z : Met} (hz : Under i v z) :
    ∃ m', Repairs edits z.1 z.2 m' ∧ (Under i v' (z.1, m') ∨ m' = []) := by
  cases hz with
  | one =>
    cases h with
    | one h => exact ⟨_, h, .inl .one⟩
    | noMapping h => exact absurd rfl (h _)
  | list hmem =>
    cases h with
    | noList h => exact absurd rfl (h _)
    | list h =>
      obtain ⟨m', hm', hin⟩ := h.kept_or_empty hmem
      exact ⟨m', hm', hin.imp_left .list⟩

/-- What is judged in a value's repair is the repair of what is judged in the value. -/
theorem RepairsValue.written {i : Inner} {v v' : Value} (h : RepairsValue edits i v v') {z : Met}
    (hz : Under i v' z) : ∃ m, Under i v (z.1, m) ∧ Repairs edits z.1 m z.2 := by
  cases hz with
  | one =>
    cases h with
    | one h => exact ⟨_, .one, h⟩
    | noMapping h => exact absurd rfl (h _)
  | list hmem =>
    cases h with
    | noList h => exact absurd rfl (h _)
    | list h =>
      obtain ⟨m, hin, hm⟩ := h.written hmem
      exact ⟨m, .list hin, hm⟩

/-! ## What a repair is read as -/

/-- A mapping whose keys are left as they are and whose values nothing is judged in is its own repair. -/
theorem RepairsEntries.eq_of_left {l l' : Entries} (h : RepairsEntries edits role m l l')
    (hvalid : role.valid edits m = none) (hinner : ∀ key, role.inner edits m key = .plain) :
    l' = l := by
  induction l generalizing l' with
  | nil =>
    cases h
    rfl
  | cons first rest ih =>
    have hself : ∀ key, role.readAs edits m key = some key := fun key => by
      rw [Role.readAs, hvalid]
    cases h with
    | other hkey hrest => rw [ih hrest]
    | read hread hvalue hrest =>
      obtain rfl := Option.some.inj ((hself _).symm.trans hread)
      rw [Role.under_self, hinner] at hvalue
      cases hvalue
      rw [ih hrest]
    | out hread hrest => cases (hself _).symm.trans hread

theorem isSome_of_readKind {near : String} (h : readKind edits m = some near) :
    (kindKeys near).isSome = true := by
  unfold readKind at h
  split at h
  · cases h
  · split_ifs at h with hwritten
    · exact Option.some.inj h ▸ hwritten
    · exact isSome_kindKeys (nearest_mem h)

/-- A node read as a kind is judged against that kind's keys, its tag among them. -/
theorem valid_of_readKind {near : String} (h : readKind edits m = some near) :
    ∃ valid, Role.valid edits .node m = some valid ∧ nodeKeys near = some valid ∧ tag ∈ valid := by
  obtain ⟨own, hown⟩ := Option.isSome_iff_exists.mp (isSome_of_readKind h)
  have hkeys : nodeKeys near = some (nodeLevelKeys ++ [tag] ++ own) := by rw [nodeKeys, hown]; rfl
  refine ⟨_, ?_, hkeys, tag_mem_nodeKeys hkeys⟩
  show (readKind edits m).bind nodeKeys = _
  rw [h]
  exact hkeys

theorem inner_tag {near : String} (h : readKind edits m = some near) :
    Role.inner edits .node m tag = .kind near := by
  have htag : Role.innerOfNode near tag = .kind near := by
    simp [Role.innerOfNode, tag]
  simpa only [Role.inner, h] using htag

theorem mem_keys_of_readKind {near : String} (h : readKind edits m = some near) :
    tag ∈ Mapping.keys m := by
  unfold readKind writtenKind at h
  cases hget : Mapping.get m tag with
  | none =>
    rw [hget] at h
    cases h
  | some v =>
    obtain ⟨entry, hentry, -⟩ := Option.map_eq_some_iff.mp hget
    refine List.mem_filterMap.mpr ⟨entry, List.mem_of_find?_eq_some hentry, ?_⟩
    simpa using List.find?_some hentry

/-- A node that is read as a kind is repaired to one that writes it. -/
theorem RepairsEntries.writes_kind {near : String} (hnear : readKind edits m = some near)
    {l l' : Entries} (h : RepairsEntries edits .node m l l') (hmem : tag ∈ Mapping.keys l) :
    Mapping.get l' tag = some (.string near) := by
  obtain ⟨valid, hvalid, -, htag⟩ := valid_of_readKind hnear
  have hself : Role.readAs edits .node m tag = some tag := Role.readAs_of_mem hvalid htag
  induction l generalizing l' with
  | nil => cases hmem
  | cons first rest ih =>
    obtain ⟨v, hv⟩ := Mapping.mem_keys.mp hmem
    cases h with
    | other hkey hrest =>
      rw [Mapping.get_cons, if_neg (by simp [hkey])]
      refine ih hrest (Mapping.mem_keys.mpr ⟨v, (List.mem_cons.mp hv).resolve_left ?_⟩)
      rintro heq
      cases heq
      cases hkey
    | read hread hvalue hrest =>
      rename_i key read v₁ v₁'
      by_cases hkey : key = tag
      · subst hkey
        obtain rfl := Option.some.inj (hself.symm.trans hread)
        rw [Role.under_self, inner_tag hnear] at hvalue
        cases hvalue
        rw [Mapping.get_cons]
        exact if_pos rfl
      · -- No other key is read as the kind's, which the node writes.
        have hread' : read ≠ tag := by
          rintro rfl
          rcases (Role.readAs_cases hvalid hread).2 with heq | hnot
          · exact hkey heq
          · exact hnot (mem_keys_of_readKind hnear)
        rw [Mapping.get_cons, if_neg (by simpa [Value.asStr] using hread')]
        refine ih hrest (Mapping.mem_keys.mpr ⟨v, (List.mem_cons.mp hv).resolve_left ?_⟩)
        rintro heq
        cases heq
        exact hkey rfl
    | out hread hrest =>
      refine ih hrest (Mapping.mem_keys.mpr ⟨v, (List.mem_cons.mp hv).resolve_left ?_⟩)
      rintro heq
      cases heq
      cases hself.symm.trans hread

/-- A repair is judged as what it repairs. -/
theorem Repairs.same_judge (h : Repairs edits role m m') :
    role.valid edits m' = role.valid edits m ∧
      (∀ key, role.inner edits m' key = role.inner edits m key) ∧
      (role = .node → ∀ near, readKind edits m' = some near → writtenKind m' = some near) := by
  obtain ⟨hentries⟩ := h
  cases role with
  | node =>
    cases hkind : readKind edits m with
    | none =>
      have hvalid : Role.valid edits .node m = none := by
        show (readKind edits m).bind nodeKeys = none
        rw [hkind]
        rfl
      obtain rfl := hentries.eq_of_left hvalid fun key => by simp only [Role.inner, hkind]
      refine ⟨rfl, fun _ => rfl, fun _ near hnear => ?_⟩
      cases hkind.symm.trans hnear
    | some near =>
      have hget := hentries.writes_kind hkind (mem_keys_of_readKind hkind)
      have hwritten : writtenKind m' = some near := by
        rw [writtenKind, hget]
        rfl
      have hkind' : readKind edits m' = some near := by
        unfold readKind
        rw [hwritten]
        exact if_pos (isSome_of_readKind hkind)
      refine ⟨?_, fun key => ?_, fun _ other hother => ?_⟩
      · show (readKind edits m').bind nodeKeys = (readKind edits m).bind nodeKeys
        rw [hkind, hkind']
      · simp only [Role.inner, hkind, hkind']
      · rw [hwritten, ← hkind', hother]
  | source =>
    cases haliased : aliased m with
    | true =>
      have hvalid : Role.valid edits .source m = none := if_pos haliased
      obtain rfl := hentries.eq_of_left hvalid fun key => if_pos haliased
      exact ⟨rfl, fun _ => rfl, fun hrole => by cases hrole⟩
    | false =>
      have hvalid : Role.valid edits .source m = some contextKeys :=
        if_neg (by rw [haliased]; exact Bool.false_ne_true)
      -- Every key of the repair is one a source reads today.
      have haliased' : aliased m' = false := by
        refine List.any_eq_false.mpr fun key hkey => ?_
        obtain ⟨v', hv'⟩ := Mapping.mem_keys.mp hkey
        obtain ⟨written, v, -, hread, -⟩ := hentries.written hv'
        have hknown := (Role.readAs_cases hvalid hread).1
        revert hknown
        generalize key = k
        revert k
        decide
      refine ⟨?_, fun key => ?_, fun hrole => by cases hrole⟩
      · simp only [Role.valid, haliased, haliased']
      · simp only [Role.inner, haliased, haliased']
  | workflow => exact ⟨rfl, fun _ => rfl, fun hrole => by cases hrole⟩
  | file => exact ⟨rfl, fun _ => rfl, fun hrole => by cases hrole⟩
  | reference claimed => exact ⟨rfl, fun _ => rfl, fun hrole => by cases hrole⟩
  | mount => exact ⟨rfl, fun _ => rfl, fun hrole => by cases hrole⟩
  | step => exact ⟨rfl, fun _ => rfl, fun hrole => by cases hrole⟩

/-- A repair has no key to refuse. -/
theorem Repairs.tidy (h : Repairs edits role m m') : Tidy edits (role, m') := by
  obtain ⟨hvalid', -, hkind⟩ := h.same_judge
  refine ⟨fun key hkey => ?_, hkind⟩
  obtain ⟨hentries⟩ := h
  obtain ⟨v', hv'⟩ := Mapping.mem_keys.mp hkey
  obtain ⟨written, v, -, hread, -⟩ := hentries.written hv'
  cases hvalid : role.valid edits m with
  | none =>
    show role.readAs edits m' key = some key
    rw [Role.readAs, hvalid', hvalid]
  | some valid => exact Role.readAs_of_mem (hvalid'.trans hvalid) (Role.readAs_cases hvalid hread).1

/-! ## One round -/

/-- Where the repair writes no key twice, no two keys of the mapping are read as one. -/
theorem RepairsEntries.alone {l l' : Entries} (h : RepairsEntries edits role m l l')
    (hnodup : (Mapping.keys l').Nodup) {key other near : String} (hkey : key ∈ Mapping.keys l)
    (hother : other ∈ Mapping.keys l) (hread : role.readAs edits m key = some near)
    (hread' : role.readAs edits m other = some near) : key = other := by
  induction l generalizing l' with
  | nil => cases hkey
  | cons first rest ih =>
    cases h with
    | other hnone hrest =>
      rename_i rest' k v
      have hkeys : ∀ r, Mapping.keys ((k, v) :: r) = Mapping.keys r := fun r =>
        List.filterMap_cons_none hnone
      rw [hkeys] at hkey hother hnodup
      exact ih hrest hnodup hkey hother
    | read hfirst hvalue hrest =>
      rename_i rest' k read v v'
      obtain ⟨hnew, hnodup⟩ := List.nodup_cons.mp
        (show (read :: Mapping.keys rest').Nodup from hnodup)
      -- No key after the first is read as it is.
      have hother_read : ∀ later ∈ Mapping.keys rest, role.readAs edits m later ≠ some read := by
        intro later hlater hreads
        obtain ⟨w, hw⟩ := Mapping.mem_keys.mp hlater
        obtain ⟨w', hw', -⟩ := hrest.entry hw hreads
        exact hnew (Mapping.mem_keys.mpr ⟨w', hw'⟩)
      rcases List.mem_cons.mp (show key ∈ k :: Mapping.keys rest from hkey) with rfl | hkey'
      · obtain rfl := Option.some.inj (hfirst.symm.trans hread)
        rcases List.mem_cons.mp (show other ∈ key :: Mapping.keys rest from hother) with rfl | hother'
        · rfl
        · exact absurd hread' (hother_read other hother')
      · rcases List.mem_cons.mp (show other ∈ k :: Mapping.keys rest from hother) with rfl | hother'
        · obtain rfl := Option.some.inj (hfirst.symm.trans hread')
          exact absurd hread (hother_read key hkey')
        · exact ih hrest hnodup hkey' hother'
    | out hout hrest =>
      rename_i k v
      rcases List.mem_cons.mp (show key ∈ k :: Mapping.keys rest from hkey) with rfl | hkey'
      · cases hout.symm.trans hread
      · rcases List.mem_cons.mp (show other ∈ k :: Mapping.keys rest from hother) with rfl | hother'
        · cases hout.symm.trans hread'
        · exact ih hrest hnodup hkey' hother'

/-- A repair of what one mapping holds lies in the mapping's repair, or is empty. -/
theorem Repairs.held (h : Repairs edits role m m') {z : Met} (hz : Holds edits (role, m) z) :
    ∃ n, Repairs edits z.1 z.2 n ∧ (Holds edits (role, m') (z.1, n) ∧
      (Distinct (.mapping m') → Distinct (.mapping n)) ∨ n = []) := by
  obtain ⟨hvalid', hinner', -⟩ := h.same_judge
  have htidy := h.tidy
  obtain ⟨hentries⟩ := h
  obtain ⟨key, v, near, hmem, hread, hunder⟩ := hz
  obtain ⟨v', hv', hvalue⟩ := hentries.entry hmem hread
  obtain ⟨n, hn, hin⟩ := hvalue.kept_or_empty hunder
  refine ⟨n, hn, hin.imp_left fun hin => ⟨?_, fun hdistinct => ?_⟩⟩
  · refine ⟨near, v', near, hv', htidy.keys near (Mapping.mem_keys.mpr ⟨v', hv'⟩), ?_⟩
    rw [Role.under_self, hinner']
    unfold Role.under at hin
    split_ifs at hin
    · exact hin
    · cases hin
  · have hdv : Distinct v' := hdistinct.value hv'
    generalize Role.under edits role m key near = i at hin
    cases hin with
    | one => exact hdv
    | list hitem => exact hdv.item hitem

/-- **No key's value takes another's place.**  Where a repair writes no key twice, no mapping met in
    the document writes two keys read as one. -/
theorem Repairs.alone (h : Repairs edits role m m') (hdistinct : Distinct (.mapping m')) {z : Met}
    (hz : Meets edits (role, m) z) : Alone edits z := by
  have hall : ∀ y, Meets edits y z → ∀ n, Repairs edits y.1 y.2 n → Distinct (.mapping n) →
      Alone edits z := by
    intro y hy
    induction hy using ReflTransGen.head_induction_on with
    | refl =>
      rintro n ⟨hentries⟩ hn key hkey other hother near hread hread'
      exact hentries.alone hn.apart.nodup_keys hkey hother hread hread'
    | head hyz _ ih =>
      intro n hrepairs hn
      obtain ⟨n', hn', hin | rfl⟩ := hrepairs.held hyz
      · exact ih n' hn' (hin.2 hn)
      · exact ih [] hn' (.mapping List.Pairwise.nil (by simp))
  exact hall (role, m) hz m' h hdistinct

/-- **A second round finds nothing** exactly where each list under a misspelled key is clean. -/
theorem clean_repaired_iff (h : Repairs edits role m m') :
    Clean edits (role, m') ↔ ∀ z, Meets edits (role, m) z → Settled edits z := by
  constructor
  · intro hclean z hz
    have hall : ∀ y, Meets edits y z → ∀ n, Repairs edits y.1 y.2 n → Clean edits (y.1, n) →
        Settled edits z := by
      intro y hy
      induction hy using ReflTransGen.head_induction_on with
      | refl =>
        intro n hrepairs hn key v near hmem hread hslip hrole w hw
        obtain ⟨-, hinner, -⟩ := hrepairs.same_judge
        obtain ⟨hentries⟩ := hrepairs
        obtain ⟨v', hv', hvalue⟩ := hentries.entry hmem hread
        -- The value under the key meant is the one written under the misspelled key.
        rw [Role.under, if_neg (by simp [hslip, hrole])] at hvalue
        cases hvalue
        refine hn.held ⟨near, v, near, hv', hn.tidy.keys near (Mapping.mem_keys.mpr ⟨v, hv'⟩), ?_⟩
        rw [Role.under_self]
        exact (hinner near).symm ▸ hw
      | head hyz _ ih =>
        intro n hrepairs hn
        obtain ⟨n', hn', hin | rfl⟩ := hrepairs.held hyz
        · exact ih n' hn' (hn.held hin.1)
        · exact ih [] hn' (clean_nil _)
    exact hall (role, m) hz m' h hclean
  · intro hsettled z hz
    have hall : ∀ y, Meets edits y z → ∀ n, Repairs edits y.1 n y.2 →
        (∀ w, Meets edits (y.1, n) w → Settled edits w) → Tidy edits z := by
      intro y hy
      induction hy using ReflTransGen.head_induction_on with
      | refl => exact fun n hrepairs _ => hrepairs.tidy
      | head hyz hzs ih =>
        rename_i y₁ y₂
        intro n hrepairs hn
        obtain ⟨-, hinner, -⟩ := hrepairs.same_judge
        have htidy := hrepairs.tidy
        obtain ⟨hentries⟩ := hrepairs
        obtain ⟨key, v', near, hmem, hread, hunder⟩ := hyz
        obtain rfl := Option.some.inj
          ((htidy.keys key (Mapping.mem_keys.mpr ⟨v', hmem⟩)).symm.trans hread)
        rw [Role.under_self, hinner] at hunder
        obtain ⟨written, v, hv, hread', hvalue⟩ := hentries.written hmem
        by_cases hwalk : written = key ∨ y₁.1 = .source
        · rw [Role.under, if_pos hwalk] at hvalue
          obtain ⟨n', hin, hn'⟩ := hvalue.written hunder
          have hholds : Holds edits (y₁.1, n) (y₂.1, n') := by
            refine ⟨written, v, key, hv, hread', ?_⟩
            rw [Role.under, if_pos hwalk]
            exact hin
          exact ih n' hn' fun w hw => hn w (.head hholds hw)
        · rw [Role.under, if_neg hwalk] at hvalue
          cases hvalue
          obtain ⟨hslip, hrole⟩ := not_or.mp hwalk
          exact hn _ .refl written v' key hv hread' hslip hrole _ hunder z hzs
    exact hall (role, m') hz m h hsettled

end Yunta.WorkflowAudit
