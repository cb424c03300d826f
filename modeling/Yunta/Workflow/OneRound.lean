/-
  One round of key fixes, as the audit makes it.

  1. **A mapping** — whatever walks a mapping hands on its entries as their keys are read, and finds
     nothing exactly where the mapping is clean (`Judges`).

  2. **The lists** — `JudgesItems` and `JudgesValue` say the same of a list and of what lies under a
     key; each function of the walk has its own spec, the nodes by induction on how deep they go.

  3. **Main result** — `one_round`: the document handed on keeps every value, under the key written or
     the one meant, and a second audit finds nothing, exactly where no mapping misspells one key twice
     and each list under a misspelled key is clean.
-/
import Yunta.Lib.Logged
import Yunta.Workflow.Repair

set_option linter.unusedVariables false

namespace Yunta.WorkflowAudit

open Yunta.Yaml Relation Logged

variable {edits : String → String → Nat} {role : Role} {m : Entries}

/-! ## What a walk hands on -/

variable (edits)

/-- `x` walks `m`, read as `role`, and hands on `m'`: it finds nothing exactly where the mapping is
    clean, and `m'` is its repair where no mapping met in it has two keys read as one. -/
structure Judges (role : Role) (m m' : Entries) (x : Audited Entries) : Prop where
  yields : Yields Auditor.broken x m' (Clean edits (role, m))
  distinct : Distinct (.mapping m')
  repairs : (∀ z, Meets edits (role, m) z → Alone edits z) → Repairs edits role m m'

/-- The same of what lies under a key. -/
structure JudgesValue (i : Inner) (v v' : Value) (x : Audited Value) : Prop where
  yields : Yields Auditor.broken x v' (∀ y, Under i v y → Clean edits y)
  distinct : Distinct v'
  repairs : (∀ y, Under i v y → ∀ z, Meets edits y z → Alone edits z) → RepairsValue edits i v v'

/-- The same of the mappings of a list. -/
structure JudgesItems (role : Role) (items items' : List Value) (x : Audited (List Value)) : Prop where
  yields : Yields Auditor.broken x items'
    (∀ m, Value.mapping m ∈ items → Clean edits (role, m))
  distinct : ∀ v ∈ items', Distinct v
  repairs : (∀ m, Value.mapping m ∈ items → ∀ z, Meets edits (role, m) z → Alone edits z) →
    RepairsItems edits role items items'

/-- An entry as its key is read; none where it is taken out. -/
def readEntry (role : Role) (m : Entries) (val : String → String → Value → Value)
    (e : Value × Value) : Option (Value × Value) :=
  match e.1.asStr with
  | none => some e
  | some key => (role.readAs edits m key).map fun near => (.string near, val key near e.2)

variable {edits}

theorem readEntry_string (val : String → String → Value → Value) (key : String) (v : Value) :
    readEntry edits role m val (.string key, v) =
      (role.readAs edits m key).map fun near => (.string near, val key near v) := rfl

/-! ## A mapping's entries -/

section Entries

variable {val : String → String → Value → Value}

/-- Where no two keys are read as one, the entries read write no key twice. -/
theorem apart_readEntries (hm : Mapping.Apart m) (halone : Alone edits (role, m)) :
    Mapping.Apart (m.filterMap (readEntry edits role m val)) := by
  refine List.pairwise_filterMap.mpr (hm.imp_of_mem ?_)
  intro e e' he he' hsame r hr r' hr'
  rw [Bool.eq_false_iff] at hsame ⊢
  intro hread
  unfold readEntry at hr hr'
  cases hkey : e.1.asStr with
  | none =>
    rw [hkey] at hr
    cases hr
    cases hkey' : e'.1.asStr with
    | none =>
      rw [hkey'] at hr'
      cases hr'
      exact hsame hread
    | some key' =>
      rw [hkey'] at hr'
      obtain ⟨near', -, rfl⟩ := Option.map_eq_some_iff.mp hr'
      cases hkey.symm.trans (Value.same_string_right.mp hread)
  | some key =>
    rw [hkey] at hr
    obtain ⟨near, hnear, rfl⟩ := Option.map_eq_some_iff.mp hr
    have hr'key := Value.same_string_left.mp hread
    cases hkey' : e'.1.asStr with
    | none =>
      rw [hkey'] at hr'
      cases hr'
      cases hkey'.symm.trans hr'key
    | some key' =>
      rw [hkey'] at hr'
      obtain ⟨near', hnear', rfl⟩ := Option.map_eq_some_iff.mp hr'
      obtain rfl : near' = near := Option.some.inj hr'key
      have hin : key ∈ Mapping.keys m := List.mem_filterMap.mpr ⟨e, he, hkey⟩
      have hin' : key' ∈ Mapping.keys m := List.mem_filterMap.mpr ⟨e', he', hkey'⟩
      obtain rfl := halone key hin key' hin' near' hnear hnear'
      refine hsame ?_
      rw [Value.eq_string_of_asStr hkey, Value.eq_string_of_asStr hkey']
      exact Value.same_string_left.mpr rfl

theorem repairsEntries_read
    (hval : ∀ key v near, (Value.string key, v) ∈ m → role.readAs edits m key = some near →
      RepairsValue edits (role.under edits m key near) v (val key near v))
    {l : Entries} (hl : ∀ e ∈ l, e ∈ m) :
    RepairsEntries edits role m l (l.filterMap (readEntry edits role m val)) := by
  induction l with
  | nil => exact .nil
  | cons e rest ih =>
    have hrest := ih fun other hother => hl other (List.mem_cons_of_mem _ hother)
    obtain ⟨key, v⟩ := e
    cases hkey : key.asStr with
    | none =>
      rw [List.filterMap_cons_some (b := (key, v)) (by simp [readEntry, hkey])]
      exact .other hkey hrest
    | some name =>
      obtain rfl := Value.eq_string_of_asStr hkey
      cases hread : role.readAs edits m name with
      | none =>
        rw [List.filterMap_cons_none (by rw [readEntry_string, hread]; rfl)]
        exact .out hread hrest
      | some near =>
        rw [List.filterMap_cons_some (b := (.string near, val name near v))
          (by rw [readEntry_string, hread]; rfl)]
        exact .read hread (hval name v near (hl _ List.mem_cons_self) hread) hrest

theorem distinct_read (hm : Distinct (.mapping m))
    (hval : ∀ key v near, (Value.string key, v) ∈ m → role.readAs edits m key = some near →
      Distinct (val key near v)) :
    Distinct (.mapping (Mapping.gather (m.filterMap (readEntry edits role m val)))) := by
  refine Distinct.gather fun e he => ?_
  obtain ⟨⟨key, v⟩, hmem, hread⟩ := List.mem_filterMap.mp he
  cases hkey : key.asStr with
  | none =>
    rw [show readEntry edits role m val (key, v) = some (key, v) by simp [readEntry, hkey]] at hread
    cases hread
    exact hm.value hmem
  | some name =>
    obtain rfl := Value.eq_string_of_asStr hkey
    obtain ⟨near, hnear, rfl⟩ := Option.map_eq_some_iff.mp hread
    exact hval name v near hmem hnear

/-- What hands on a mapping's entries as its keys are read, and is quiet where the mapping is clean,
    judges it. -/
theorem judges_of_read (val : String → String → Value → Value) {x : Audited Entries} {m' : Entries}
    (hyields : Yields Auditor.broken x m' (Clean edits (role, m)))
    (hdistinct : Distinct (.mapping m'))
    (hread : Alone edits (role, m) → m' = m.filterMap (readEntry edits role m val))
    (hval : ∀ key v near, (Value.string key, v) ∈ m → role.readAs edits m key = some near →
      (∀ y, Under (role.under edits m key near) v y → ∀ z, Meets edits y z → Alone edits z) →
      RepairsValue edits (role.under edits m key near) v (val key near v)) :
    Judges edits role m m' x := by
  refine ⟨hyields, hdistinct, fun halone => ?_⟩
  rw [hread (halone _ .refl)]
  refine ⟨repairsEntries_read (fun key v near hmem hnear => ?_) fun e he => he⟩
  refine hval key v near hmem hnear fun y hy z hz => halone z (.head ?_ hz)
  exact ⟨key, v, near, hmem, hnear, hy⟩

end Entries

/-! ## The loop -/

theorem refuse_yields (place : Place) (subject : Subject) (fault : WorkflowFault) :
    Yields Auditor.broken (refuse place subject fault) () False :=
  .adds fun auditor => ⟨⟨subject, fault, place⟩, rfl⟩

theorem read_yields (pointer : Pointer) (written near : String) :
    Yields Auditor.broken (read pointer written near) () True :=
  .change fun auditor => rfl

/-- The loop hands on the entries as they are read, and is quiet where every key is accepted and what
    is under it is quiet. -/
theorem judged_yields {valid : List String} (hvalid : role.valid edits m = some valid)
    {audited : String → Value → Audited Value} {f : String → Value → Value}
    {quiet : String → Value → Prop}
    (haudited : ∀ key v, (Value.string key, v) ∈ m → key ∈ valid →
      Yields Auditor.broken (audited key v) (f key v) (quiet key v))
    (fault : String → WorkflowFault) (subject : Subject) (pointer : Pointer) :
    Yields Auditor.broken (judged edits valid audited fault subject pointer m)
      (Mapping.gather (m.filterMap (readEntry edits role m fun key near v =>
        if key = near then f key v else v)))
      (∀ key v, (Value.string key, v) ∈ m → key ∈ valid ∧ quiet key v) := by
  rw [Mapping.gather, List.foldl_filterMap]
  refine (Yields.foldlM (p := fun e => ∀ key, e.1.asStr = some key → key ∈ valid ∧ quiet key e.2)
    (fun e he kept => ?_) []).of_iff ⟨fun h key v hmem => h _ hmem key rfl, fun h e he key hkey => ?_⟩
  · obtain ⟨name, v⟩ := e
    cases hkey : name.asStr with
    | none =>
      simp only [readEntry, hkey]
      exact (Yields.ret _).of_iff (by simp)
    | some key =>
      obtain rfl := Value.eq_string_of_asStr hkey
      simp only [readEntry, hkey]
      by_cases hin : key ∈ valid
      · rw [Role.readAs_of_mem hvalid hin, if_pos (List.contains_iff_mem.mpr hin)]
        simp only [Option.map_some, if_true]
        refine ((haudited key v he hin).thenRet _).of_iff ?_
        simp [hin]
      · rw [Role.readAs, hvalid, if_neg (by simpa using hin)]
        dsimp only
        rw [if_neg (by simpa using hin)]
        have hloud : ¬ ∀ other, some key = some other → other ∈ valid ∧ quiet other v :=
          fun h => hin (h key rfl).1
        cases hmeant : meant edits key valid (Mapping.keys m) with
        | none =>
          refine ((refuse_yields _ _ _).thenRet fun _ => kept).of_iff ?_
          simpa using hloud
        | some near =>
          have hother : key ≠ near := fun heq => hin
            (heq ▸ nearest_mem (Option.filter_eq_some_iff.mp hmeant).1)
          simp only [Option.map_some, if_neg hother]
          refine ((refuse_yields _ _ _).andThen ((read_yields pointer key near).thenRet
            fun _ => Mapping.put kept (.string near) v)).of_iff ?_
          simpa using hloud
  · obtain ⟨name, v⟩ := e
    obtain rfl := Value.eq_string_of_asStr hkey
    exact h key v he

/-! ## A mapping judged -/

/-- A mapping judged against keys is clean where it accepts each and what is under it is. -/
theorem clean_iff_accepted {valid : List String} (hvalid : role.valid edits m = some valid)
    (hkind : role = .node → ∀ near, readKind edits m = some near → writtenKind m = some near) :
    Clean edits (role, m) ↔ ∀ key v, (Value.string key, v) ∈ m →
      key ∈ valid ∧ ∀ y, Under (role.inner edits m key) v y → Clean edits y := by
  refine clean_iff.trans ⟨fun ⟨htidy, hheld⟩ key v hmem => ?_, fun h => ⟨⟨?_, hkind⟩, ?_⟩⟩
  · have hself := htidy.keys key (Mapping.mem_keys.mpr ⟨v, hmem⟩)
    refine ⟨(Role.readAs_cases hvalid hself).1, fun y hy => hheld y ⟨key, v, key, hmem, hself, ?_⟩⟩
    rwa [Role.under_self]
  · intro key hkey
    obtain ⟨v, hmem⟩ := Mapping.mem_keys.mp hkey
    exact Role.readAs_of_mem hvalid (h key v hmem).1
  · rintro y ⟨key, v, near, hmem, hread, hunder⟩
    obtain rfl := Option.some.inj
      ((Role.readAs_of_mem hvalid (h key v hmem).1).symm.trans hread)
    rw [Role.under_self] at hunder
    exact (h key v hmem).2 y hunder

/-- The loop judges a mapping whose values it judges. -/
theorem judges_judged {valid : List String} (hvalid : role.valid edits m = some valid)
    (hrole : role ≠ .source)
    (hkind : role = .node → ∀ near, readKind edits m = some near → writtenKind m = some near)
    (hm : Distinct (.mapping m)) {audited : String → Value → Audited Value}
    {f : String → Value → Value}
    (haudited : ∀ key v, (Value.string key, v) ∈ m → key ∈ valid →
      JudgesValue edits (role.inner edits m key) v (f key v) (audited key v))
    (fault : String → WorkflowFault) (subject : Subject) (pointer : Pointer) :
    Judges edits role m
      (Mapping.gather (m.filterMap (readEntry edits role m fun key near v =>
        if key = near then f key v else v)))
      (judged edits valid audited fault subject pointer m) := by
  have hknown : ∀ key v, (Value.string key, v) ∈ m → role.readAs edits m key = some key →
      JudgesValue edits (role.inner edits m key) v (f key v) (audited key v) :=
    fun key v hmem hself => haudited key v hmem (Role.readAs_cases hvalid hself).1
  refine judges_of_read _ ?_ (distinct_read hm fun key v near hmem hread => ?_)
    (fun halone => Mapping.gather_of_apart (apart_readEntries hm.apart halone))
    fun key v near hmem hread halone => ?_
  · exact (judged_yields hvalid (fun key v hmem hin => (haudited key v hmem hin).yields) fault
      subject pointer).of_iff (clean_iff_accepted hvalid hkind).symm
  · split_ifs with hself
    · subst hself
      exact (hknown key v hmem hread).distinct
    · exact hm.value hmem
  · split_ifs with hself
    · subst hself
      rw [Role.under_self] at halone ⊢
      exact (hknown key v hmem hread).repairs halone
    · rw [Role.under, if_neg (by simp [hself, hrole])]
      exact .plain v

/-- A value nothing is judged in is left as it is. -/
theorem judgesValue_left {i : Inner} {v : Value} (hv : Distinct v) (hnone : ∀ y, ¬ Under i v y)
    (hrepairs : RepairsValue edits i v v) : JudgesValue edits i v v (pure v) :=
  ⟨(Yields.ret v).of_iff ⟨fun _ y hy => absurd hy (hnone y), fun _ => trivial⟩, hv,
    fun _ => hrepairs⟩

theorem judgesValue_plain {v : Value} (hv : Distinct v) : JudgesValue edits .plain v v (pure v) :=
  judgesValue_left hv (by rintro y ⟨⟩) (.plain v)

/-- Nothing is judged under a list's key in what is no list. -/
theorem judgesValue_noList {role : Role} {v : Value} (hv : Distinct v)
    (hnot : ∀ items, v ≠ .sequence items) : JudgesValue edits (.list role) v v (pure v) := by
  refine judgesValue_left hv ?_ (.noList hnot)
  rintro y ⟨⟩
  exact hnot _ rfl

/-- Where each key is read as itself, every entry is handed on under the key it has. -/
theorem readEntry_of_left (hvalid : role.valid edits m = none)
    (val : String → String → Value → Value) (e : Value × Value) :
    readEntry edits role m val e =
      some (e.1, (e.1.asStr.map fun key => val key key e.2).getD e.2) := by
  obtain ⟨key, v⟩ := e
  cases hkey : key.asStr with
  | none => simp [readEntry, hkey]
  | some name =>
    obtain rfl := Value.eq_string_of_asStr hkey
    rw [readEntry_string, Role.readAs, hvalid]
    rfl

/-- A mapping whose keys are left as they are, with nothing judged under them. -/
theorem judges_left (hvalid : role.valid edits m = none)
    (hinner : ∀ key, role.inner edits m key = .plain)
    (hkind : role = .node → readKind edits m = none) (hm : Distinct (.mapping m)) :
    Judges edits role m m (pure m) := by
  have hself : ∀ key, role.readAs edits m key = some key := fun key => by rw [Role.readAs, hvalid]
  have hunder : ∀ key near, role.under edits m key near = .plain := fun key near => by
    rw [Role.under, hinner, ite_self]
  have hclean : Clean edits (role, m) := by
    refine clean_iff.mpr ⟨⟨fun key _ => hself key, fun hrole near hnear => ?_⟩, ?_⟩
    · cases (hkind hrole).symm.trans hnear
    · rintro y ⟨key, v, near, -, -, hy⟩
      rw [hunder] at hy
      cases hy
  refine judges_of_read (fun _ _ v => v) ((Yields.ret m).of_iff (by simp [hclean])) hm
    (fun _ => ?_) fun key v near _ _ _ => ?_
  · have hsome : readEntry edits role m (fun _ _ v => v) = some := by
      funext e
      rw [readEntry_of_left hvalid]
      cases e.1.asStr <;> rfl
    rw [hsome, List.filterMap_some]
  · rw [hunder]
    exact .plain v

/-! ## What is under one key -/

/-- What is under `key` changed, and nothing else. -/
def setAt (m : Entries) (key : String) (g : Value → Value) : Entries :=
  m.map fun e => if e.1.asStr = some key then (e.1, g e.2) else e

theorem mem_setAt_of_ne {key other : String} (h : other ≠ key) {g : Value → Value} {v : Value} :
    (Value.string other, v) ∈ setAt m key g ↔ (Value.string other, v) ∈ m := by
  refine List.mem_map.trans ⟨?_, fun hmem => ⟨_, hmem, if_neg ?_⟩⟩
  · rintro ⟨e, he, heq⟩
    split_ifs at heq with hkey
    · have hfst : e.1 = .string other := (Prod.mk.inj heq).1
      rw [hfst] at hkey
      exact absurd (Option.some.inj hkey) h
    · exact heq ▸ he
  · exact fun heq => h (Option.some.inj heq)

theorem setAt_of_notMem {key : String} (h : key ∉ Mapping.keys m) (g : Value → Value) :
    setAt m key g = m := by
  refine (List.map_congr_left fun e he => if_neg fun heq => ?_).trans (List.map_id _)
  exact h (List.mem_filterMap.mpr ⟨e, he, heq⟩)

theorem keys_setAt (m : Entries) (key : String) (g : Value → Value) :
    Mapping.keys (setAt m key g) = Mapping.keys m := by
  rw [Mapping.keys, Mapping.keys, setAt, List.filterMap_map]
  refine List.filterMap_congr fun e _ => ?_
  show (if e.1.asStr = some key then (e.1, g e.2) else e).1.asStr = e.1.asStr
  split_ifs <;> rfl

theorem get_setAt (m : Entries) (key : String) (g : Value → Value) :
    Mapping.get (setAt m key g) key = (Mapping.get m key).map g := by
  induction m with
  | nil => rfl
  | cons e rest ih =>
    show Mapping.get ((if e.1.asStr = some key then (e.1, g e.2) else e) :: setAt rest key g) key = _
    by_cases hkey : e.1.asStr = some key
    · rw [if_pos hkey, Mapping.get_cons, Mapping.get_cons, if_pos hkey, if_pos hkey]
      rfl
    · rw [if_neg hkey, Mapping.get_cons, Mapping.get_cons, if_neg hkey, if_neg hkey, ih]

/-- A value put under a key a mapping writes takes the place of what is there. -/
theorem put_eq_setAt (hm : (Mapping.keys m).Nodup) {key : String} (hkey : key ∈ Mapping.keys m)
    (v : Value) : Mapping.put m (.string key) v = setAt m key fun _ => v := by
  induction m with
  | nil => cases hkey
  | cons e rest ih =>
    show _ = (if e.1.asStr = some key then (e.1, v) else e) :: setAt rest key fun _ => v
    unfold Mapping.put
    by_cases hfirst : e.1.asStr = some key
    · obtain ⟨name, w⟩ := e
      obtain rfl := Value.eq_string_of_asStr hfirst
      obtain ⟨hnew, -⟩ := List.nodup_cons.mp (show (key :: Mapping.keys rest).Nodup from hm)
      rw [if_pos (Value.same_string_right.mpr hfirst), if_pos hfirst, setAt_of_notMem hnew]
    · have hsub : (Mapping.keys rest).Sublist (Mapping.keys (e :: rest)) :=
        (List.sublist_cons_self e rest).filterMap _
      have hrest : key ∈ Mapping.keys rest := by
        obtain ⟨w, hw⟩ := Mapping.mem_keys.mp hkey
        refine Mapping.mem_keys.mpr ⟨w, (List.mem_cons.mp hw).resolve_left ?_⟩
        rintro rfl
        exact hfirst rfl
      rw [if_neg (fun h => hfirst (Value.same_string_right.mp h)), if_neg hfirst,
        ih (hm.sublist hsub) hrest]

theorem distinct_setAt (hm : Distinct (.mapping m)) {key : String} {g : Value → Value}
    (hg : ∀ v, (Value.string key, v) ∈ m → Distinct (g v)) :
    Distinct (.mapping (setAt m key g)) := by
  refine .mapping (List.pairwise_map.mpr (hm.apart.imp fun {e e'} hsame => ?_)) fun e he => ?_
  · have hkey : ∀ e : Value × Value,
        (if e.1.asStr = some key then (e.1, g e.2) else e).1 = e.1 := fun e => by split_ifs <;> rfl
    rw [hkey, hkey]
    exact hsame
  · obtain ⟨e', he', rfl⟩ := List.mem_map.mp he
    split_ifs with hkey
    · obtain ⟨name, v⟩ := e'
      obtain rfl := Value.eq_string_of_asStr hkey
      exact hg v he'
    · exact hm.value he'

/-- Of a mapping that writes no key twice, what is under a key is put through `f` and nothing else. -/
theorem inPlace_yields (hm : (Mapping.keys m).Nodup) {key : String} {f : Value → Audited Value}
    {g : Value → Value} {quiet : Value → Prop}
    (hf : ∀ v, (Value.string key, v) ∈ m → Yields Auditor.broken (f v) (g v) (quiet v)) :
    Yields Auditor.broken (inPlace m key f) (setAt m key g)
      (∀ v, (Value.string key, v) ∈ m → quiet v) := by
  induction m with
  | nil => exact (Yields.ret _).of_iff (by simp)
  | cons first rest ih =>
    obtain ⟨name, v⟩ := first
    unfold inPlace
    by_cases hkey : name.asStr = some key
    · obtain rfl := Value.eq_string_of_asStr hkey
      obtain ⟨hnew, -⟩ := List.nodup_cons.mp (show (key :: Mapping.keys rest).Nodup from hm)
      have hnone : ∀ w, (Value.string key, w) ∉ rest := fun w hw =>
        hnew (Mapping.mem_keys.mpr ⟨w, hw⟩)
      have hset : setAt ((Value.string key, v) :: rest) key g = (Value.string key, g v) :: rest := by
        -- The rest has the key no more.
        show (if _ then _ else _) :: setAt rest key g = _
        rw [setAt_of_notMem hnew, if_pos hkey]
      rw [if_pos (by simpa using hkey), hset]
      refine ((hf v List.mem_cons_self).thenRet _).of_iff ⟨fun hq w hw => ?_, fun h => ?_⟩
      · rcases List.mem_cons.mp hw with heq | hw
        · cases heq
          exact hq
        · exact absurd hw (hnone w)
      · exact h v List.mem_cons_self
    · have hnodup : (Mapping.keys rest).Nodup := by
        refine List.Nodup.sublist ?_ hm
        exact List.Sublist.filterMap _ (List.sublist_cons_self _ _)
      have hset : setAt ((name, v) :: rest) key g = (name, v) :: setAt rest key g := by
        show (if _ then _ else _) :: setAt rest key g = _
        rw [if_neg hkey]
      rw [if_neg (by simpa using hkey), hset]
      refine ((ih hnodup fun w hw => hf w (List.mem_cons_of_mem _ hw)).thenRet _).of_iff
        ⟨fun h w hw => ?_, fun h w hw => h w (List.mem_cons_of_mem _ hw)⟩
      rcases List.mem_cons.mp hw with heq | hw
      · cases heq
        exact absurd rfl hkey
      · exact h w hw

/-! ## Lists -/

/-- An item that is a mapping put through `g`, and any other as it is. -/
def itemThrough (g : Entries → Entries) (item : Value) : Value :=
  match item with
  | .mapping m => .mapping (g m)
  | other => other

/-- Every mapping of a list, each with its index or without. -/
theorem forall_zipIdx {items : List Value} {P : Entries → Prop} :
    (∀ item ∈ items.zipIdx, ∀ m, item.1 = Value.mapping m → P m) ↔
      ∀ m, Value.mapping m ∈ items → P m := by
  refine ⟨fun h m hm => ?_, fun h item hitem m hm => ?_⟩
  · rw [← List.zipIdx_map_fst 0 items] at hm
    obtain ⟨item, hitem, heq⟩ := List.mem_map.mp hm
    exact h item hitem m heq
  · exact h m (hm ▸ List.fst_mem_of_mem_zipIdx hitem)

/-- A list each of whose mappings is judged is judged. -/
theorem each_judges {items : List Value} (hitems : ∀ v ∈ items, Distinct v)
    {f : Nat → Entries → Audited Entries} {g : Entries → Entries}
    (hf : ∀ m, Value.mapping m ∈ items → ∀ index, Judges edits role m (g m) (f index m)) :
    JudgesItems edits role items (items.map (itemThrough g)) (each items f) := by
  refine ⟨?_, fun v hv => ?_, fun halone => ?_⟩
  · have hmap : items.map (itemThrough g) = items.zipIdx.map fun item => itemThrough g item.1 := by
      rw [show (fun item : Value × Nat => itemThrough g item.1) = itemThrough g ∘ Prod.fst from rfl,
        ← List.map_map, List.zipIdx_map_fst]
    rw [hmap]
    refine (Yields.mapM (p := fun item : Value × Nat => ∀ m, item.1 = .mapping m →
      Clean edits (role, m)) fun item hitem => ?_).of_iff forall_zipIdx
    obtain ⟨v, index⟩ := item
    have hv : v ∈ items := List.fst_mem_of_mem_zipIdx hitem
    cases v with
    | mapping m =>
      refine ((hf m hv index).yields.map).of_iff ⟨fun h n hn => ?_, fun h => h m rfl⟩
      cases hn
      exact h
    | _ => exact (Yields.ret _).of_iff (by simp)
  · obtain ⟨item, hitem, rfl⟩ := List.mem_map.mp hv
    cases item with
    | mapping m => exact (hf m hitem 0).distinct
    | _ => exact hitems _ hitem
  · clear hitems
    induction items with
    | nil => exact .nil
    | cons item rest ih =>
      have hrest := ih (fun m hm => hf m (List.mem_cons_of_mem _ hm))
        fun m hm => halone m (List.mem_cons_of_mem _ hm)
      cases item with
      | mapping m =>
        exact .kept ((hf m List.mem_cons_self 0).repairs (halone m List.mem_cons_self)) hrest
      | _ => exact .other (fun m h => by cases h) hrest

/-- As `itemThrough`, and nothing where the mapping wrote keys and is left with none. -/
def itemLeft (g : Entries → Entries) (item : Value) : Option Value :=
  match item with
  | .mapping m => if !m.isEmpty && (g m).isEmpty then none else some (.mapping (g m))
  | other => some other

theorem itemLeft_mapping (g : Entries → Entries) (m : Entries) :
    itemLeft g (.mapping m) =
      if !m.isEmpty && (g m).isEmpty then none else some (.mapping (g m)) := rfl

/-- The same where a mapping left with no key is taken out. -/
theorem eachLeft_judges {items : List Value} (hitems : ∀ v ∈ items, Distinct v)
    {f : Nat → Entries → Audited Entries} {g : Entries → Entries}
    (hf : ∀ m, Value.mapping m ∈ items → ∀ index, Judges edits role m (g m) (f index m)) :
    JudgesItems edits role items (items.filterMap (itemLeft g)) (eachLeft items f) := by
  refine ⟨?_, fun v hv => ?_, fun halone => ?_⟩
  · have hfold : ∀ kept : List Value, ∀ l : List (Value × Nat),
        l.foldl (fun kept item => kept ++ (itemLeft g item.1).toList) kept =
          kept ++ (l.map (·.1)).filterMap (itemLeft g) := by
      intro kept l
      induction l generalizing kept with
      | nil => simp
      | cons item rest ih =>
        rw [List.foldl_cons, ih, List.map_cons, List.filterMap_cons]
        cases itemLeft g item.1 <;> simp
    have heq : items.filterMap (itemLeft g) =
        items.zipIdx.foldl (fun kept item => kept ++ (itemLeft g item.1).toList) [] := by
      rw [hfold, List.zipIdx_map_fst, List.nil_append]
    rw [heq]
    refine (Yields.foldlM (p := fun item : Value × Nat => ∀ m, item.1 = .mapping m →
      Clean edits (role, m)) (fun item hitem kept => ?_) []).of_iff forall_zipIdx
    obtain ⟨v, index⟩ := item
    have hv : v ∈ items := List.fst_mem_of_mem_zipIdx hitem
    cases v with
    | mapping m =>
      have hleft : Yields Auditor.broken
          (if !m.isEmpty && (g m).isEmpty then pure kept else pure (kept ++ [.mapping (g m)]))
          (kept ++ (itemLeft g (.mapping m)).toList) True := by
        by_cases hempty : (!m.isEmpty && (g m).isEmpty) = true
        · rw [itemLeft_mapping, if_pos hempty, if_pos hempty]
          exact (List.append_nil kept).symm ▸ Yields.ret kept
        · rw [itemLeft_mapping, if_neg hempty, if_neg hempty]
          exact Yields.ret _
      refine ((hf m hv index).yields.andThen hleft).of_iff ⟨fun h n hn => ?_,
        fun h => ⟨h m rfl, trivial⟩⟩
      cases hn
      exact h.1
    | _ => exact (Yields.ret _).of_iff (by simp)
  · obtain ⟨item, hitem, hleft⟩ := List.mem_filterMap.mp hv
    cases item with
    | mapping m =>
      rw [itemLeft_mapping] at hleft
      split_ifs at hleft
      cases hleft
      exact (hf m hitem 0).distinct
    | _ =>
      cases hleft
      exact hitems _ hitem
  · clear hitems
    induction items with
    | nil => exact .nil
    | cons item rest ih =>
      have hrest := ih (fun m hm => hf m (List.mem_cons_of_mem _ hm))
        fun m hm => halone m (List.mem_cons_of_mem _ hm)
      cases item with
      | mapping m =>
        have hm := (hf m List.mem_cons_self 0).repairs (halone m List.mem_cons_self)
        rw [List.filterMap_cons]
        by_cases hempty : (!m.isEmpty && (g m).isEmpty) = true
        · have hnil : g m = [] := List.isEmpty_iff.mp (Bool.and_eq_true_iff.mp hempty).2
          rw [itemLeft_mapping, if_pos hempty]
          exact .out (hnil ▸ hm) hrest
        · rw [itemLeft_mapping, if_neg hempty]
          exact .kept hm hrest
      | _ => exact .other (fun m h => by cases h) hrest

/-- What is under a list's key, where it is a list. -/
theorem judgesValue_list {items items' : List Value} {x : Audited (List Value)}
    (h : JudgesItems edits role items items' x) :
    JudgesValue edits (.list role) (.sequence items) (.sequence items') (Value.sequence <$> x) := by
  refine ⟨h.yields.map.of_iff ⟨?_, fun hall m hm => hall _ (.list hm)⟩, .sequence h.distinct,
    fun halone => .list (h.repairs fun m hm => halone _ (.list hm))⟩
  rintro hall y ⟨⟩
  exact hall _ ‹_›

/-! ## The entries of a workflow's lists -/

variable (edits) in
/-- A mapping's entries as their keys are read, with nothing below them judged. -/
def entryRead (role : Role) (m : Entries) : Entries :=
  Mapping.gather (m.filterMap (readEntry edits role m fun _ _ v => v))

theorem entry_judges {valid : List String} (hvalid : role.valid edits m = some valid)
    (hrole : role ≠ .source) (hnode : role ≠ .node)
    (hinner : ∀ key, role.inner edits m key = .plain) (hm : Distinct (.mapping m))
    (pointer : Pointer) (subject : Subject) (what : String) :
    Judges edits role m (entryRead edits role m) (entry edits m pointer subject what valid) := by
  have h := judges_judged hvalid hrole (fun heq => absurd heq hnode) hm
    (fun key v hmem _ => by rw [hinner]; exact judgesValue_plain (hm.value hmem))
    (fun name => .unknownEntryKey name what (nearest edits name valid)) subject pointer
  simp only [ite_self] at h
  exact h

variable (edits) in
theorem files_judges {v : Value} (hv : Distinct v) :
    ∃ v', ∀ pointer subject, JudgesValue edits (.list .file) v v' (files edits v pointer subject) := by
  cases v with
  | sequence items =>
    refine ⟨.sequence (items.map (itemThrough (entryRead edits .file))), fun pointer subject => ?_⟩
    have h : JudgesItems edits .file items _ _ := each_judges (fun w hw => hv.item hw)
      fun m hm index => entry_judges rfl (by decide) (by decide) (fun _ => rfl) (hv.item hm)
        (pointer ++ [.index index]) subject "a `files:` entry"
    exact judgesValue_list h
  | _ => exact ⟨_, fun _ _ => judgesValue_left hv (by rintro y ⟨⟩) (.noList (by simp))⟩

variable (edits) in
theorem reference_judges (claimed : List String) {v : Value} (hv : Distinct v) :
    ∃ v', ∀ pointer subject what, JudgesValue edits (.one (.reference claimed)) v v'
      (reference edits v pointer subject what claimed) := by
  cases v with
  | mapping m =>
    refine ⟨.mapping (entryRead edits (.reference claimed) m), fun pointer subject what => ?_⟩
    have h : Judges edits (.reference claimed) m _ _ := entry_judges rfl (by simp) (by simp)
      (fun _ => rfl) hv pointer subject what
    refine ⟨h.yields.map.of_iff ⟨?_, fun hall => hall _ .one⟩, h.distinct,
      fun halone => .one (h.repairs (halone _ .one))⟩
    rintro hclean y ⟨⟩
    exact hclean
  | _ => exact ⟨_, fun _ _ _ => judgesValue_left hv (by rintro y ⟨⟩) (.noMapping (by simp))⟩

/-- Where a mapping accepts every key it writes, its entries are read as they are. -/
theorem entryRead_of_accepted {valid : List String} (hvalid : role.valid edits m = some valid)
    (hm : Mapping.Apart m) (h : ∀ key v, (Value.string key, v) ∈ m → key ∈ valid) :
    entryRead edits role m = m := by
  have hread : m.filterMap (readEntry edits role m fun _ _ v => v) = m := by
    refine (List.filterMap_congr (g := some) fun e he => ?_).trans List.filterMap_some
    obtain ⟨key, v⟩ := e
    cases hkey : key.asStr with
    | none => simp [readEntry, hkey]
    | some name =>
      obtain rfl := Value.eq_string_of_asStr hkey
      rw [readEntry_string, Role.readAs_of_mem hvalid (h name v he)]
      rfl
  rw [entryRead, hread, Mapping.gather_of_apart hm]

variable (edits) in
theorem mount_judges (hm : Distinct (.mapping m)) :
    ∃ m', ∀ (pointer : Pointer) (subject : Subject), Judges edits .mount m m'
      (inPlace m "artifact" fun value =>
        reference edits value pointer subject "a `mounts:` entry" mountArtifact) := by
  choose! g hg using fun v (hv : Distinct v) => reference_judges edits mountArtifact hv
  have hjudges : ∀ v, (Value.string "artifact", v) ∈ m → ∀ pointer subject what, _ :=
    fun v hmem => hg v (hm.value hmem)
  have hself : ∀ key, Role.readAs edits .mount m key = some key := fun key => rfl
  refine ⟨setAt m "artifact" g, fun pointer subject => ?_⟩
  refine judges_of_read (fun key _ v => if key = "artifact" then g v else v)
    ((inPlace_yields hm.apart.nodup_keys fun v hmem =>
      (hjudges v hmem pointer subject _).yields).of_iff ?_)
    (distinct_setAt hm fun v hmem => (hjudges v hmem pointer subject "").distinct)
    (fun _ => ?_) fun key v near hmem hread halone => ?_
  · refine Iff.trans ⟨fun h => ?_, fun h v hmem y hy => ?_⟩ clean_iff.symm
    · refine ⟨⟨fun key _ => hself key, by rintro ⟨⟩⟩, ?_⟩
      rintro y ⟨key, v, near, hmem, hread, hy⟩
      obtain rfl := Option.some.inj hread
      rw [Role.under_self] at hy
      by_cases hkey : key = "artifact"
      · subst hkey
        exact h v hmem y hy
      · rw [show Role.inner edits .mount m key = .plain from if_neg hkey] at hy
        cases hy
    · exact h.2 y ⟨"artifact", v, "artifact", hmem, rfl, by rw [Role.under_self]; exact hy⟩
  · rw [setAt, ← List.filterMap_eq_map]
    refine List.filterMap_congr fun e _ => ?_
    rw [readEntry_of_left rfl]
    cases hkey : e.1.asStr with
    | none => simp [hkey]
    | some name => by_cases hname : name = "artifact" <;> simp [hkey, hname]
  · obtain rfl := Option.some.inj hread
    rw [Role.under_self] at halone ⊢
    by_cases hkey : key = "artifact"
    · subst hkey
      exact (hjudges v hmem pointer subject "").repairs halone
    · rw [if_neg hkey, show Role.inner edits .mount m key = .plain from if_neg hkey]
      exact .plain v

/-- What is under two keys of a mapping as its entries are read. -/
theorem setAt_readEntry {key other : String} (hne : key ≠ other) {g k : Value → Value} :
    setAt (setAt (m.filterMap (readEntry edits role m fun _ _ v => v)) key g) other k =
      m.filterMap (readEntry edits role m fun _ near v =>
        if near = key then g v else if near = other then k v else v) := by
  rw [setAt, setAt, List.map_filterMap, List.map_filterMap]
  refine List.filterMap_congr fun e _ => ?_
  obtain ⟨name, v⟩ := e
  cases hname : name.asStr with
  | none => simp [readEntry, hname]
  | some written =>
    obtain rfl := Value.eq_string_of_asStr hname
    rw [readEntry_string, readEntry_string]
    cases role.readAs edits m written with
    | none => rfl
    | some near =>
      by_cases hkey : near = key
      · subst hkey
        simp [Value.asStr, hne]
      · by_cases hother : near = other
        · subst hother
          simp [Value.asStr, hkey]
        · simp [Value.asStr, hkey, hother]

variable (edits) in
theorem source_judges (hm : Distinct (.mapping m)) :
    ∃ m', ∀ pointer subject, Judges edits .source m m' (source edits m pointer subject) := by
  cases haliased : aliased m with
  | true =>
    refine ⟨m, fun pointer subject => ?_⟩
    rw [source, if_pos haliased]
    exact judges_left (if_pos haliased) (fun key => if_pos haliased) (by rintro ⟨⟩) hm
  | false =>
    have hnot : ¬ aliased m = true := by rw [haliased]; exact Bool.false_ne_true
    have hvalid : Role.valid edits .source m = some contextKeys := if_neg hnot
    have hfiles : Role.inner edits .source m "files" = .list .file := if_neg hnot
    have hartifact : Role.inner edits .source m "artifact" = .one (.reference contextArtifact) :=
      if_neg hnot
    have hplain : ∀ key, key ≠ "files" → key ≠ "artifact" →
        Role.inner edits .source m key = .plain := fun key hf ha => by
      simp [Role.inner, haliased, hf, ha]
    choose! gf hgf using fun v (hv : Distinct v) => files_judges edits hv
    choose! ga hga using fun v (hv : Distinct v) =>
      reference_judges edits contextArtifact hv
    have hread : Distinct (.mapping (entryRead edits .source m)) :=
      distinct_read hm fun _ v _ hmem _ => hm.value hmem
    have hset : Distinct (.mapping (setAt (entryRead edits .source m) "files" gf)) :=
      distinct_setAt hread fun v hmem => (hgf v (hread.value hmem) [] .document).distinct
    refine ⟨setAt (setAt (entryRead edits .source m) "files" gf) "artifact" ga,
      fun pointer subject => ?_⟩
    rw [source, if_neg hnot]
    refine judges_of_read (fun _ near v =>
      if near = "files" then gf v else if near = "artifact" then ga v else v) ?_
      (distinct_setAt hset fun v hmem => (hga v (hset.value hmem) [] .document "").distinct)
      (fun halone => ?_) fun key v near hmem hnear halone => ?_
    · have hentry := judged_yields hvalid (fun key v _ _ => Yields.ret v)
        (fun name => .unknownEntryKey name "a context source" (nearest edits name contextKeys))
        subject pointer
      simp only [ite_self] at hentry
      refine (hentry.andThen ((inPlace_yields hread.apart.nodup_keys fun v hv =>
        (hgf v (hread.value hv) _ _).yields).andThen (inPlace_yields hset.apart.nodup_keys
          fun v hv => (hga v (hset.value hv) _ _ _).yields))).of_iff ?_
      rw [clean_iff_accepted hvalid (by rintro ⟨⟩)]
      have hsame : (∀ key v, (Value.string key, v) ∈ m → key ∈ contextKeys) →
          entryRead edits .source m = m := entryRead_of_accepted hvalid hm.apart
      refine ⟨fun hall key v hmem => ⟨(hall.1 key v hmem).1, fun y hy => ?_⟩,
        fun h => ⟨fun key v hmem => ⟨(h key v hmem).1, trivial⟩, fun v hv y hy => ?_,
          fun v hv y hy => ?_⟩⟩
      · obtain ⟨hkeys, hf, ha⟩ := hall
        rw [hsame fun key v hmem => (hkeys key v hmem).1] at hf ha
        by_cases hkey : key = "files"
        · subst hkey
          exact hf v hmem y (hfiles ▸ hy)
        · by_cases hother : key = "artifact"
          · subst hother
            exact ha v ((mem_setAt_of_ne hkey).mpr hmem) y (hartifact ▸ hy)
          · rw [hplain key hkey hother] at hy
            cases hy
      · rw [hsame fun key v hmem => (h key v hmem).1] at hv
        exact (h _ v hv).2 y (hfiles.symm ▸ hy)
      · rw [hsame fun key v hmem => (h key v hmem).1] at hv
        exact (h _ v ((mem_setAt_of_ne (by decide)).mp hv)).2 y (hartifact.symm ▸ hy)
    · rw [entryRead, Mapping.gather_of_apart (apart_readEntries hm.apart halone),
        setAt_readEntry (by decide)]
    · rw [show Role.under edits .source m key near = Role.inner edits .source m near from
        if_pos (.inr rfl)] at halone ⊢
      by_cases hkey : near = "files"
      · subst hkey
        rw [hfiles] at halone ⊢
        exact (hgf v (hm.value hmem) [] .document).repairs halone
      · by_cases hother : near = "artifact"
        · subst hother
          rw [hartifact] at halone ⊢
          exact (hga v (hm.value hmem) [] .document "").repairs halone
        · rw [hplain near hkey hother, if_neg hkey, if_neg hother]
          exact .plain v

/-! ## The lists of a node and of a workflow -/

variable (edits) in
theorem sources_judges {items : List Value} (hitems : ∀ v ∈ items, Distinct v) :
    ∃ items', ∀ pointer subject,
      JudgesItems edits .source items items' (sources edits items pointer subject) := by
  choose! g hg using fun m (hm : Value.mapping m ∈ items) =>
    source_judges edits (hitems _ hm)
  exact ⟨_, fun pointer subject => eachLeft_judges hitems fun m hm index => hg m hm _ _⟩

variable (edits) in
theorem mounts_judges {items : List Value} (hitems : ∀ v ∈ items, Distinct v) :
    ∃ items', ∀ pointer subject,
      JudgesItems edits .mount items items' (mounts edits items pointer subject) := by
  choose! g hg using fun m (hm : Value.mapping m ∈ items) =>
    mount_judges edits (hitems _ hm)
  exact ⟨_, fun pointer subject => each_judges hitems fun m hm index => hg m hm _ _⟩

variable (edits) in
theorem closingSteps_judges {items : List Value} (hitems : ∀ v ∈ items, Distinct v) :
    ∃ items', ∀ pointer, JudgesItems edits .step items items' (closingSteps edits items pointer) :=
  ⟨_, fun pointer => eachLeft_judges (g := entryRead edits .step) hitems fun m hm index =>
    entry_judges rfl (by decide) (by decide) (fun _ => rfl) (hitems _ hm) _ _ _⟩

section Listed

variable {children : List Value → Pointer → Audited (List Value)} {kind key : String} {v : Value}
  (pointer : Pointer) (subject : Subject)

theorem listed_context (items : List Value) :
    listed edits children kind pointer subject "context" (.sequence items) =
      Value.sequence <$> sources edits items (pointer ++ [.key "context"]) subject := by
  unfold listed
  split <;> simp_all

/-- What is not one of the three lists is kept as it is. -/
theorem listed_other (hnodes : ∀ items, v = .sequence items → ¬ (kind = "parallel" ∧ key = "nodes"))
    (hcontext : ∀ items, v = .sequence items → key ≠ "context")
    (hmounts : ∀ items, v = .sequence items → ¬ (kind = "workflow" ∧ key = "mounts")) :
    listed edits children kind pointer subject key v = pure v := by
  unfold listed
  split
  · exact absurd ⟨rfl, rfl⟩ (hnodes _ rfl)
  · exact absurd rfl (hcontext _ rfl)
  · exact absurd ⟨rfl, rfl⟩ (hmounts _ rfl)
  · rfl

/-- What is under a key a node of `kind` accepts is judged as what lies under it. -/
theorem listed_judges (hv : Distinct v) (hkind : key = tag → v = .string kind)
    (hchildren : ∀ items, v = .sequence items →
      ∃ items', ∀ pointer, JudgesItems edits .node items items' (children items pointer)) :
    ∃ v', ∀ pointer subject, JudgesValue edits (Role.innerOfNode kind key) v v'
      (listed edits children kind pointer subject key v) := by
  -- What is under a list's key and no list is kept as it is.
  have hother : ∀ role, Role.innerOfNode kind key = .list role → (∀ items, v ≠ .sequence items) →
      ∃ v', ∀ pointer subject, JudgesValue edits (Role.innerOfNode kind key) v v'
        (listed edits children kind pointer subject key v) := by
    intro role hinner hnot
    refine ⟨v, fun pointer subject => ?_⟩
    rw [hinner, listed_other pointer subject (fun items h => absurd h (hnot items))
      (fun items h => absurd h (hnot items)) fun items h => absurd h (hnot items)]
    exact judgesValue_noList hv hnot
  by_cases hnodes : kind = "parallel" ∧ key = "nodes"
  · have hinner : Role.innerOfNode kind key = .list .node := if_pos hnodes
    cases v with
    | sequence items =>
      obtain ⟨items', h⟩ := hchildren items rfl
      obtain ⟨rfl, rfl⟩ := hnodes
      exact ⟨_, fun pointer subject => judgesValue_list (h _)⟩
    | _ => exact hother _ hinner (by simp)
  by_cases hcontext : key = "context"
  · have hinner : Role.innerOfNode kind key = .list .source := by
      rw [Role.innerOfNode, if_neg hnodes, if_pos hcontext]
    cases v with
    | sequence items =>
      obtain ⟨items', h⟩ := sources_judges edits fun w hw => hv.item hw
      refine ⟨.sequence items', fun pointer subject => ?_⟩
      subst hcontext
      rw [hinner, listed_context]
      exact judgesValue_list (h _ _)
    | _ => exact hother _ hinner (by simp)
  by_cases hmounts : kind = "workflow" ∧ key = "mounts"
  · have hinner : Role.innerOfNode kind key = .list .mount := by
      rw [Role.innerOfNode, if_neg hnodes, if_neg hcontext, if_pos hmounts]
    cases v with
    | sequence items =>
      obtain ⟨items', h⟩ := mounts_judges edits fun w hw => hv.item hw
      refine ⟨.sequence items', fun pointer subject => ?_⟩
      rw [hinner]
      obtain ⟨rfl, rfl⟩ := hmounts
      exact judgesValue_list (h _ _)
    | _ => exact hother _ hinner (by simp)
  refine ⟨v, fun pointer subject => ?_⟩
  rw [listed_other pointer subject (fun _ _ => hnodes) (fun _ _ => hcontext) fun _ _ => hmounts,
    Role.innerOfNode, if_neg hnodes, if_neg hcontext, if_neg hmounts]
  split_ifs with htag
  · rw [hkind htag]
    exact judgesValue_left (.string _) (by rintro y ⟨⟩) (.kind kind _)
  · exact judgesValue_plain hv

end Listed

/-! ## A node -/

/-- The node with the kind it is read as written in it. -/
def withKind (m : Entries) (kind : String) : Entries := setAt m tag fun _ => .string kind

section WithKind

variable {near : String} (h : readKind edits m = some near)

include h

theorem readKind_withKind :
    writtenKind (withKind m near) = some near ∧ readKind edits (withKind m near) = some near := by
  obtain ⟨v, hv⟩ : ∃ v, Mapping.get m tag = some v := by
    cases hget : Mapping.get m tag with
    | none =>
      unfold readKind writtenKind at h
      rw [hget] at h
      cases h
    | some v => exact ⟨v, rfl⟩
  have hwritten : writtenKind (withKind m near) = some near := by
    rw [writtenKind, withKind, get_setAt, hv]
    rfl
  refine ⟨hwritten, ?_⟩
  unfold readKind
  rw [hwritten]
  exact if_pos (isSome_of_readKind h)

/-- Writing the kind a node is read as changes nothing of how it is read. -/
theorem readAs_withKind (key : String) :
    Role.readAs edits .node (withKind m near) key = Role.readAs edits .node m key ∧
      Role.inner edits .node (withKind m near) key = Role.inner edits .node m key := by
  have hkind := (readKind_withKind h).2
  have hvalid : Role.valid edits .node (withKind m near) = Role.valid edits .node m := by
    show (readKind edits _).bind nodeKeys = (readKind edits m).bind nodeKeys
    rw [hkind, h]
  refine ⟨?_, ?_⟩
  · rw [Role.readAs, Role.readAs, hvalid, withKind, keys_setAt]
  · simp only [Role.inner, hkind, h]

theorem under_withKind (key other : String) :
    Role.under edits .node (withKind m near) key other = Role.under edits .node m key other := by
  rw [Role.under, Role.under, (readAs_withKind h other).2]

theorem holds_of_withKind {z : Met} (hz : Holds edits (.node, withKind m near) z) :
    Holds edits (.node, m) z := by
  obtain ⟨key, v, other, hmem, hread, hunder⟩ := hz
  rw [(readAs_withKind h key).1] at hread
  rw [under_withKind h] at hunder
  by_cases hkey : key = tag
  · -- Nothing is judged under the kind.
    subst hkey
    obtain ⟨valid, hvalid, -, htag⟩ := valid_of_readKind h
    obtain rfl := Option.some.inj ((Role.readAs_of_mem hvalid htag).symm.trans hread)
    rw [Role.under_self, inner_tag h] at hunder
    cases hunder
  · have hset : (Value.string key, v) ∈ setAt m tag fun _ => .string near := hmem
    exact ⟨key, v, other, (mem_setAt_of_ne hkey).mp hset, hread, hunder⟩

theorem alone_withKind (halone : ∀ z, Meets edits (.node, m) z → Alone edits z) :
    ∀ z, Meets edits (.node, withKind m near) z → Alone edits z := by
  intro z hz
  rcases ReflTransGen.cases_head hz with rfl | ⟨y, hy, hyz⟩
  · intro key hkey other hother read hread hread'
    rw [withKind, keys_setAt] at hkey hother
    rw [(readAs_withKind h key).1] at hread
    rw [(readAs_withKind h other).1] at hread'
    exact halone _ .refl key hkey other hother read hread hread'
  · exact halone z (.head (holds_of_withKind h hy) hyz)

theorem repairsEntries_of_withKind {l l' : Entries}
    (hl : RepairsEntries edits .node (withKind m near) (setAt l tag fun _ => .string near) l') :
    RepairsEntries edits .node m l l' := by
  obtain ⟨valid, hvalid, -, htag⟩ := valid_of_readKind h
  have hself : Role.readAs edits .node m tag = some tag := Role.readAs_of_mem hvalid htag
  induction l generalizing l' with
  | nil =>
    cases hl
    exact .nil
  | cons e rest ih =>
    obtain ⟨key, v⟩ := e
    change RepairsEntries edits .node (withKind m near)
      ((if key.asStr = some tag then (key, .string near) else (key, v)) ::
        setAt rest tag fun _ => .string near) l' at hl
    by_cases hkey : key.asStr = some tag
    · obtain rfl := Value.eq_string_of_asStr hkey
      rw [if_pos hkey] at hl
      cases hl with
      | other hnone _ => cases hnone
      | out hread _ => cases ((readAs_withKind h tag).1.trans hself).symm.trans hread
      | read hread hvalue hrest =>
        obtain rfl := Option.some.inj (((readAs_withKind h tag).1.trans hself).symm.trans hread)
        rw [under_withKind h, Role.under_self, inner_tag h] at hvalue
        cases hvalue
        refine .read hself ?_ (ih hrest)
        rw [Role.under_self, inner_tag h]
        exact .kind near v
    · rw [if_neg hkey] at hl
      cases hl with
      | other hnone hrest => exact .other hnone (ih hrest)
      | read hread hvalue hrest =>
        rw [(readAs_withKind h _).1] at hread
        rw [under_withKind h] at hvalue
        exact .read hread hvalue (ih hrest)
      | out hread hrest =>
        rw [(readAs_withKind h _).1] at hread
        exact .out hread (ih hrest)

end WithKind

/-- The children of every list a mapping holds are judged. -/
def JudgesChildren (edits : String → String → Nat) (m : Entries)
    (children : List Value → Pointer → Audited (List Value)) : Prop :=
  ∀ key items, (Value.string key, Value.sequence items) ∈ m →
    ∃ items', ∀ pointer, JudgesItems edits .node items items' (children items pointer)

/-- A node that writes the kind it is read as. -/
theorem judges_kind {children : List Value → Pointer → Audited (List Value)} {kind : String}
    {valid : List String} (hkind : readKind edits m = some kind) (hwritten : writtenKind m = some kind)
    (hvalid : nodeKeys kind = some valid) (hm : Distinct (.mapping m))
    (hchildren : JudgesChildren edits m children) :
    ∃ m', ∀ subject pointer, Judges edits .node m m'
      (judged edits valid (listed edits children kind pointer subject)
        (unknownNodeKey edits kind valid) subject pointer m) := by
  have hvalid' : Role.valid edits .node m = some valid := by
    show (readKind edits m).bind nodeKeys = _
    rw [hkind]
    exact hvalid
  -- The mapping has its tag once, with the kind under it.
  have htag : ∀ v, (Value.string tag, v) ∈ m → v = .string kind := by
    intro v hv
    have hget := Mapping.get_of_mem hm.apart.nodup_keys hv
    rw [writtenKind, hget] at hwritten
    exact Value.eq_string_of_asStr hwritten
  have hlisted : ∀ key v, (Value.string key, v) ∈ m → ∃ v', ∀ pointer subject,
      JudgesValue edits (Role.inner edits .node m key) v v'
        (listed edits children kind pointer subject key v) := by
    intro key v hmem
    rw [show Role.inner edits .node m key = Role.innerOfNode kind key by simp only [Role.inner, hkind]]
    refine listed_judges (hm.value hmem) (fun heq => htag v (heq ▸ hmem)) fun items heq => ?_
    exact hchildren key items (heq ▸ hmem)
  choose! f hf using hlisted
  exact ⟨_, fun subject pointer => judges_judged hvalid' (by decide) (fun _ near hnear => by
    rw [hwritten, ← hkind, hnear]) hm (fun key v hmem _ => hf key v hmem pointer subject) _ _ _⟩

/-- A node whose kind cannot be read is left as it is. -/
theorem judges_kindless (h : readKind edits m = none) (hm : Distinct (.mapping m)) :
    Judges edits .node m m (pure m) := by
  refine judges_left ?_ (fun key => by simp only [Role.inner, h]) (fun _ => h) hm
  show (readKind edits m).bind nodeKeys = none
  rw [h]
  rfl

theorem nodeAs_judges {children : List Value → Pointer → Audited (List Value)}
    (hm : Distinct (.mapping m)) (hchildren : JudgesChildren edits m children) :
    ∃ m', ∀ subject pointer, Judges edits .node m m' (nodeAs edits children m pointer subject) := by
  cases hwritten : writtenKind m with
  | none =>
    have hkind : readKind edits m = none := by rw [readKind, hwritten]
    refine ⟨m, fun subject pointer => ?_⟩
    rw [nodeAs, kindOf, hwritten]
    exact judges_kindless hkind hm
  | some written =>
    cases hknown : kindKeys written with
    | some own =>
      have hkind : readKind edits m = some written := by
        rw [readKind, hwritten]
        exact if_pos (by rw [hknown]; rfl)
      have hvalid : nodeKeys written = some (nodeLevelKeys ++ [tag] ++ own) := by
        rw [nodeKeys, hknown]
        rfl
      obtain ⟨m', h⟩ := judges_kind hkind hwritten hvalid hm hchildren
      refine ⟨m', fun subject pointer => ?_⟩
      have hbody : nodeAs edits children m pointer subject =
          judged edits (nodeLevelKeys ++ [tag] ++ own)
            (listed edits children written pointer subject)
            (unknownNodeKey edits written (nodeLevelKeys ++ [tag] ++ own)) subject pointer m := by
        simp only [nodeAs, kindOf, hwritten, hknown, hvalid, Option.isSome_some, if_true, pure_bind]
      rw [hbody]
      exact h subject pointer
    | none =>
      cases hnear : nearest edits written kinds with
      | none =>
        have hkind : readKind edits m = none := by
          simp [readKind, hwritten, hknown, hnear]
        refine ⟨m, fun subject pointer => ?_⟩
        have hbody : nodeAs edits children m pointer subject = pure m := by
          simp [nodeAs, kindOf, hwritten, hknown, hnear]
        rw [hbody]
        exact judges_kindless hkind hm
      | some near =>
        have hkind : readKind edits m = some near := by
          simp [readKind, hwritten, hknown, hnear]
        obtain ⟨hwritten', hkind'⟩ := readKind_withKind hkind
        obtain ⟨valid, -, hvalid, -⟩ := valid_of_readKind hkind
        have hput : Mapping.put m (.string tag) (.string near) = withKind m near :=
          put_eq_setAt hm.apart.nodup_keys (mem_keys_of_readKind hkind) _
        have hm' : Distinct (.mapping (withKind m near)) := distinct_setAt hm fun _ _ => .string near
        have hchildren' : JudgesChildren edits (withKind m near) children := by
          intro key items hmem
          refine hchildren key items ?_
          obtain ⟨e, he, heq⟩ := List.mem_map.mp
            (show (Value.string key, Value.sequence items) ∈ setAt m tag fun _ => .string near from hmem)
          split_ifs at heq
          · cases (Prod.mk.inj heq).2
          · exact heq ▸ he
        obtain ⟨m', h⟩ := judges_kind hkind' hwritten' hvalid hm' hchildren'
        refine ⟨m', fun subject pointer => ?_⟩
        have hbody : nodeAs edits children m pointer subject =
            refuse (.value (pointer ++ [.key tag])) subject (.unknownKind written near) >>= fun _ =>
              judged edits valid (listed edits children near pointer subject)
                (unknownNodeKey edits near valid) subject pointer (withKind m near) := by
          simp [nodeAs, kindOf, hwritten, hknown, hnear, hvalid, hput]
        -- The kind written is none, so it is not the one read.
        have hdirty : ¬ Clean edits (.node, m) := fun hclean => by
          cases hwritten.symm.trans (hclean.tidy.kind rfl near hkind)
          have hsome := isSome_of_readKind hkind
          rw [hknown] at hsome
          cases hsome
        rw [hbody]
        refine ⟨?_, (h subject pointer).distinct, fun halone => ?_⟩
        · exact ((refuse_yields _ _ _).andThen (h subject pointer).yields).of_iff (by simp [hdirty])
        · obtain ⟨hentries⟩ := (h subject pointer).repairs (alone_withKind hkind halone)
          exact ⟨repairsEntries_of_withKind hkind hentries⟩

theorem node_judges {children : List Value → Pointer → Audited (List Value)}
    (hm : Distinct (.mapping m)) (hchildren : JudgesChildren edits m children) :
    ∃ m', ∀ pointer, Judges edits .node m m' (node edits children m pointer) := by
  obtain ⟨m', h⟩ := nodeAs_judges hm hchildren
  refine ⟨m', fun pointer => ⟨?_, (h .document pointer).distinct, (h .document pointer).repairs⟩⟩
  refine Yields.reading fun auditor => ?_
  exact Yields.after (f := fun auditor => { auditor with seen := auditor.seen + 1 }) (fun _ => rfl)
    (h _ pointer).yields

/-! ## The document -/

variable (edits) in
theorem nodes_judges {depth : Nat} {items : List Value} (hitems : ∀ v ∈ items, Distinct v)
    (hdepth : ∀ v ∈ items, Value.depth v ≤ depth) :
    ∃ items', ∀ pointer, JudgesItems edits .node items items' (nodes edits depth items pointer) := by
  induction depth generalizing items with
  | zero =>
    have hnone : ∀ m, Value.mapping m ∉ items := fun m hm => by
      have hle := hdepth _ hm
      change Value.depthEntries m + 1 ≤ 0 at hle
      omega
    refine ⟨items, fun pointer => ⟨(Yields.ret items).of_iff ?_, hitems, fun _ => ?_⟩⟩
    · exact ⟨fun _ m hm => absurd hm (hnone m), fun _ => trivial⟩
    · rename_i halone
      clear halone hitems hdepth
      induction items with
      | nil => exact .nil
      | cons v rest ih =>
        refine .other (fun m heq => hnone m (heq ▸ List.mem_cons_self)) (ih fun m hm => ?_)
        exact hnone m (List.mem_cons_of_mem _ hm)
  | succ depth ih =>
    have hnode : ∀ m, Value.mapping m ∈ items → ∃ m', ∀ pointer,
        Judges edits .node m m' (node edits (nodes edits depth) m pointer) := by
      intro m hm
      refine node_judges (hitems _ hm) fun key inner hmem => ?_
      refine ih (fun v hv => ((hitems _ hm).value hmem).item hv) fun v hv => ?_
      -- A node's own list lies two levels below the list the node is in.
      have hlist := Value.depth_le_entries hmem
      have hitem := Value.depth_le_items hv
      have hle := hdepth _ hm
      change Value.depthEntries m + 1 ≤ depth + 1 at hle
      change Value.depthItems inner + 1 ≤ Value.depthEntries m at hlist
      omega
    choose! g hg using hnode
    exact ⟨_, fun pointer => each_judges hitems fun m hm index => hg m hm _⟩

theorem topLevel_judges {depth : Nat} {key : String} {v : Value} (hv : Distinct v)
    (hdepth : Value.depth v ≤ depth) :
    ∃ v', JudgesValue edits (Role.inner edits .workflow m key) v v' (topLevel edits depth key v) := by
  have hother : ∀ role, Role.inner edits .workflow m key = .list role →
      (∀ items, v ≠ .sequence items) →
      ∃ v', JudgesValue edits (Role.inner edits .workflow m key) v v' (topLevel edits depth key v) := by
    intro role hinner hnot
    have hleft : topLevel edits depth key v = pure v := by
      unfold topLevel
      split
      · exact absurd rfl (hnot _)
      · exact absurd rfl (hnot _)
      · rfl
    rw [hinner, hleft]
    exact ⟨v, judgesValue_noList hv hnot⟩
  by_cases hnodes : key = "nodes"
  · have hinner : Role.inner edits .workflow m key = .list .node := if_pos hnodes
    cases v with
    | sequence items =>
      subst hnodes
      have hle : Value.depthItems items + 1 ≤ depth := hdepth
      obtain ⟨items', h⟩ := nodes_judges edits (fun w hw => hv.item hw)
        fun w hw => show Value.depth w ≤ depth by
          have hitem := Value.depth_le_items hw
          omega
      exact ⟨_, judgesValue_list (h _)⟩
    | _ => exact hother _ hinner (by simp)
  by_cases hfinish : key = "on_finish"
  · have hinner : Role.inner edits .workflow m key = .list .step := by
      simp [Role.inner, hfinish]
    cases v with
    | sequence items =>
      subst hfinish
      obtain ⟨items', h⟩ := closingSteps_judges edits fun w hw => hv.item hw
      exact ⟨_, judgesValue_list (h _)⟩
    | _ => exact hother _ hinner (by simp)
  have hinner : Role.inner edits .workflow m key = .plain := by
    simp [Role.inner, hnodes, hfinish]
  have hleft : topLevel edits depth key v = pure v := by
    unfold topLevel
    split
    · exact absurd rfl hnodes
    · exact absurd rfl hfinish
    · rfl
  rw [hinner, hleft]
  exact ⟨v, judgesValue_plain hv⟩

variable (edits) in
theorem workflow_judges {depth : Nat} (hm : Distinct (.mapping m))
    (hdepth : Value.depth (.mapping m) ≤ depth) :
    ∃ m', Judges edits .workflow m m' (workflow edits depth m) := by
  have htop : ∀ key v, (Value.string key, v) ∈ m →
      ∃ v', JudgesValue edits (Role.inner edits .workflow m key) v v' (topLevel edits depth key v) := by
    intro key v hmem
    have hle := Value.depth_le_entries hmem
    change Value.depthEntries m + 1 ≤ depth at hdepth
    exact topLevel_judges (hm.value hmem) (by dsimp only at hle; omega)
  choose! f hf using htop
  exact ⟨_, judges_judged rfl (by decide) (by rintro ⟨⟩) hm (fun key v hmem _ => hf key v hmem) _ _ _⟩

variable (edits) in
/-- What an audit finds and hands on. -/
theorem audit_spec {document : Value} (hd : Distinct document) :
    ((audit edits document).broken = [] ↔
      ∀ y, Under (.one .workflow) document y → Clean edits y) ∧
    Distinct (audit edits document).repaired ∧
    ((∀ y, Under (.one .workflow) document y → ∀ z, Meets edits y z → Alone edits z) →
      RepairsValue edits (.one .workflow) document (audit edits document).repaired) := by
  have hjudges : ∃ v', JudgesValue edits (.one .workflow) document v' (walk edits document) := by
    cases document with
    | mapping m =>
      obtain ⟨m', h⟩ := workflow_judges edits hd le_rfl
      refine ⟨.mapping m', h.yields.map.of_iff ⟨?_, fun hall => hall _ .one⟩, h.distinct,
        fun halone => .one (h.repairs (halone _ .one))⟩
      rintro hclean y ⟨⟩
      exact hclean
    | _ => exact ⟨_, judgesValue_left hd (by rintro y ⟨⟩) (.noMapping (by simp))⟩
  obtain ⟨v', h⟩ := hjudges
  have hrepaired : (audit edits document).repaired = v' := h.yields.result_eq _
  rw [hrepaired]
  exact ⟨h.yields.log_eq_iff _, h.distinct, h.repairs⟩

/-! ## One round -/

variable (edits)

/-- One round of fixes is enough: the document handed on keeps each value, under the key it is written
    under or the one that was meant, and a second audit finds nothing. -/
def OneRound (document : Value) : Prop :=
  RepairsValue edits (.one .workflow) document (audit edits document).repaired ∧
    (audit edits (audit edits document).repaired).broken = []

/-- No mapping met in the document misspells one key twice, and each list under a misspelled key is
    one nothing in is refused. -/
def Fixable (document : Value) : Prop :=
  ∀ y, Under (.one .workflow) document y → ∀ z, Meets edits y z → Alone edits z ∧ Settled edits z

/-- **One round is enough** exactly for a document in which no mapping has two misspellings of one key
    and nothing below a misspelled key is misspelled. -/
theorem one_round (document : Value) (hd : Distinct document) :
    OneRound edits document ↔ Fixable edits document := by
  obtain ⟨-, hd', hrepairs⟩ := audit_spec edits hd
  obtain ⟨hfound, -, -⟩ := audit_spec edits hd'
  rw [OneRound, hfound]
  constructor
  · rintro ⟨hkept, hclean⟩ y hy z hz
    generalize (audit edits document).repaired = repaired at hkept hclean hd'
    cases hy with
    | one =>
      cases hkept with
      | one h => exact ⟨h.alone hd' hz, (clean_repaired_iff h).mp (hclean _ .one) z hz⟩
      | noMapping h => exact absurd rfl (h _)
  · intro hfix
    have hkept := hrepairs fun y hy z hz => (hfix y hy z hz).1
    refine ⟨hkept, fun y hy => ?_⟩
    obtain ⟨m, hin, hm⟩ := hkept.written hy
    exact (clean_repaired_iff hm).mpr fun z hz => (hfix _ hin z hz).2

/-- A node under `nodez:`, with `promt:` in it. -/
def nodesMisspelled : Value :=
  .mapping [(.string "name", .string "ship"),
    (.string "nodez", .sequence [.mapping [(.string "id", .string "plan"),
      (.string "kind", .string "prompt"), (.string "promt", .string "Plan it.")]])]

theorem distinct_nodesMisspelled : Distinct nodesMisspelled := by
  have hnode : Distinct (.mapping [(.string "id", .string "plan"),
      (.string "kind", .string "prompt"), (.string "promt", .string "Plan it.")]) := by
    refine .mapping (by unfold Mapping.Apart; decide) ?_
    simp only [List.forall_mem_cons]
    exact ⟨.string _, .string _, .string _, by simp⟩
  refine .mapping (by unfold Mapping.Apart; decide) ?_
  simp only [List.forall_mem_cons]
  refine ⟨.string _, .sequence fun v hv => ?_, by simp⟩
  exact List.mem_singleton.mp hv ▸ hnode

/-- The node under `nodez:` is read as one of `nodes:` and not judged: a second audit refuses a key. -/
theorem second_audit_nodesMisspelled :
    (audit levenshtein (audit levenshtein nodesMisspelled).repaired).broken ≠ [] := by
  have hfound : (audit levenshtein (audit levenshtein nodesMisspelled).repaired).broken.isEmpty =
      false := by decide +kernel
  intro hquiet
  rw [hquiet] at hfound
  cases hfound

theorem not_one_round :
    ¬ ∀ (edits : String → String → Nat) (document : Value), Distinct document →
      OneRound edits document := by
  intro h
  exact second_audit_nodesMisspelled (h levenshtein nodesMisspelled distinct_nodesMisspelled).2

theorem one_round_nodesMisspelled : ¬ Fixable levenshtein nodesMisspelled := by
  intro hfix
  exact second_audit_nodesMisspelled
    ((one_round levenshtein nodesMisspelled distinct_nodesMisspelled).mpr hfix).2

/-- Of two misspellings of one key, one value is left. -/
example : ((audit levenshtein (.mapping [(.string "nam", .string "a"),
    (.string "nme", .string "b")])).repaired.entries.map fun e => (e.1.asStr, e.2.asStr)) =
    [(some "name", some "b")] := by decide +kernel

end Yunta.WorkflowAudit
