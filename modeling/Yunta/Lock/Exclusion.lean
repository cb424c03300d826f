/-
  At most one live process holds a checkout's lock, and what a run has to keep to for that.

  1. **Holders** — `Holder`, a live process that took the lock and neither released it nor handed it
     on.  `OneHolder` says of a run that two live processes never hold the lock at once, and that
     no process takes away the file another one holds.

  2. **Invariant** — the file names whoever holds the lock, and a file whose holder was seen to be
     gone has no holder while it stands (`Inv`).  `Inv.step` keeps it over any step that removes,
     if it removes a file, the file it read.

  3. **Runs** — `lock_one_holder` carries it over every run of such steps; `not_lock_one_holder` is
     the run of two stealers where the second removes the file the first has just created.
-/
import Mathlib.Logic.Relation
import Yunta.Lock.Acquire

set_option linter.unusedVariables false

namespace Yunta.Lock

variable {Proc : Type} {pid : Proc → Pid} {s t : State Proc} {p : Proc}

/-! ## Holders -/

/-- A live process whose `acquire` answered, or that was handed the lock, and that has neither
    released it nor handed it on. -/
def Holder (s : State Proc) (p : Proc) : Prop :=
  (s.procs p).life = .live ∧ (s.procs p).held.isSome

/-- A step that removes a file finds no file, or the one it read. -/
def ReadStands (s : State Proc) (p : Proc) (act : Act) : Prop :=
  act = .removeStale ∨ act = .remove →
    ∀ read, (s.procs p).call.removes = some read →
      ∀ file, s.file = some file → file.inode = read.inode

/-- A run starts with any file, or none, and with no process in a call or holding the lock. -/
structure Initial (pid : Proc → Pid) (s : State Proc) : Prop where
  rest : ∀ p, (s.procs p).call = .rest ∧ (s.procs p).held = none
  distinct : ∀ p q, (s.procs p).life = .live → (s.procs q).life = .live → pid p = pid q → p = q
  inode : ∀ file, s.file = some file → file.inode < s.nextInode

/-- Any number of steps of any processes, each of which `meets`. -/
def Runs [DecidableEq Proc] (pid : Proc → Pid) (meets : State Proc → Proc → Act → Prop) :
    State Proc → State Proc → Prop :=
  Relation.ReflTransGen fun s t => ∃ p act, Step pid s p act t ∧ meets s p act

/-- No two live processes hold the lock, and no step of one process that `meets` takes away or
    writes over the file another one holds. -/
def OneHolder [DecidableEq Proc] (pid : Proc → Pid) (meets : State Proc → Proc → Act → Prop)
    (s : State Proc) : Prop :=
  (∀ p q, Holder s p → Holder s q → p = q) ∧
    ∀ p act t, Step pid s p act t → meets s p act → ∀ q, q ≠ p → Holder s q → t.file = s.file

/-! ## What a reading is worth -/

/-- While the file that was read stands, it says what was read. -/
def Read (s : State Proc) (read : Reading) : Prop :=
  read.inode < s.nextInode ∧
    ∀ file, s.file = some file → file.inode = read.inode → file.content = .names read.owner

/-- While that file stands, nobody holds the lock. -/
def Untaken (s : State Proc) (inode : Nat) : Prop :=
  ∀ file, s.file = some file → file.inode = inode → ∀ q, ¬ Holder s q

/-- What the call of `p` relies on. -/
def CallOk (pid : Proc → Pid) (s : State Proc) (p : Proc) (process : Process) : Prop :=
  match process.call with
  | .asking _ read => ∀ r, read = some r → Read s r
  | .stealing _ read => Read s read ∧ Untaken s read.inode
  | .handing _ => process.held.isSome
  | .releasing owner => owner.pid = pid p
  | .unlinking read => Read s read ∧ read.owner.pid = pid p
  | _ => True

/-- The file of `t` is the file of `s`, with no holder that `s` did not have, or a new one. -/
structure Follows (s t : State Proc) : Prop where
  next : s.nextInode ≤ t.nextInode
  file : ∀ file, t.file = some file →
    (s.file = some file ∧ ∀ q, Holder t q → Holder s q) ∨ s.nextInode ≤ file.inode

theorem Read.follows {read : Reading} (h : Read s read) (hfollows : Follows s t) : Read t read := by
  refine ⟨Nat.lt_of_lt_of_le h.1 hfollows.next, ?_⟩
  intro file hfile hinode
  rcases hfollows.file file hfile with ⟨hsame, -⟩ | hnew
  · exact h.2 file hsame hinode
  · have := h.1
    omega

theorem Untaken.follows {inode : Nat} (h : Untaken s inode) (hlt : inode < s.nextInode)
    (hfollows : Follows s t) : Untaken t inode := by
  intro file hfile hinode q hq
  rcases hfollows.file file hfile with ⟨hsame, hholders⟩ | hnew
  · exact h file hsame hinode q (hholders q hq)
  · omega

/-- What a call relies on lasts over the steps of other processes. -/
theorem CallOk.follows {process process' : Process} (h : CallOk pid s p process)
    (hfollows : Follows s t) (hcall : process'.call = process.call)
    (hheld : process.held.isSome → process'.held.isSome) : CallOk pid t p process' := by
  unfold CallOk at h ⊢
  rw [hcall]
  cases hc : process.call with
  | asking loop read =>
    rw [hc] at h
    exact fun r hr => (h r hr).follows hfollows
  | stealing loop read =>
    rw [hc] at h
    exact ⟨h.1.follows hfollows, h.2.follows h.1.1 hfollows⟩
  | handing heir =>
    rw [hc] at h
    exact hheld h
  | releasing owner =>
    rw [hc] at h
    exact h
  | unlinking read =>
    rw [hc] at h
    exact ⟨h.1.follows hfollows, h.2⟩
  | _ => trivial

/-- A process in no call relies on nothing. -/
theorem CallOk.of_rest {process : Process} (h : process.call = .rest) : CallOk pid s p process := by
  unfold CallOk
  rw [h]
  trivial

/-! ## The invariant -/

/-- The file names whoever holds the lock, and every process's call can rely on what it read. -/
structure Inv (pid : Proc → Pid) (s : State Proc) : Prop where
  distinct : ∀ p q, (s.procs p).life = .live → (s.procs q).life = .live → pid p = pid q → p = q
  inode : ∀ file, s.file = some file → file.inode < s.nextInode
  held : ∀ p owner, (s.procs p).life = .live → (s.procs p).held = some owner →
    owner.pid = pid p ∧ ∃ inode, s.file = some ⟨inode, .names owner⟩
  unborn : ∀ p, (s.procs p).life = .unborn → (s.procs p).held = none
  calls : ∀ p, CallOk pid s p (s.procs p)

theorem Initial.inv (h : Initial pid s) : Inv pid s where
  distinct := h.distinct
  inode := h.inode
  held := by
    intro p owner _ hheld
    rw [(h.rest p).2] at hheld
    cases hheld
  unborn := fun p _ => (h.rest p).2
  calls := fun p => CallOk.of_rest (h.rest p).1

/-- Two live holders name one file, and so have one pid. -/
theorem Inv.exclusive (h : Inv pid s) {p q : Proc} (hp : Holder s p) (hq : Holder s q) : p = q := by
  obtain ⟨owner, howner⟩ := Option.isSome_iff_exists.mp hp.2
  obtain ⟨owner', howner'⟩ := Option.isSome_iff_exists.mp hq.2
  obtain ⟨hpid, inode, hfile⟩ := h.held p owner hp.1 howner
  obtain ⟨hpid', inode', hfile'⟩ := h.held q owner' hq.1 howner'
  have hsame : owner = owner' := by
    have := hfile.symm.trans hfile'
    simp only [Option.some.injEq, LockFile.mk.injEq, Content.names.injEq] at this
    exact this.2
  refine h.distinct p q hp.1 hq.1 ?_
  rw [← hpid, ← hpid', hsame]

/-- A file read from the lock says what was read. -/
theorem read_of_file (hinode : ∀ file, s.file = some file → file.inode < s.nextInode)
    {read : Reading} (hread : readHolder s.file = some read) : Read s read := by
  cases hfile : s.file with
  | none =>
    rw [hfile] at hread
    cases hread
  | some file =>
    obtain ⟨inode, content⟩ := file
    rw [hfile] at hread
    cases content with
    | unreadable => cases hread
    | names owner =>
      cases hread
      refine ⟨hinode _ hfile, ?_⟩
      intro file' hfile' _
      rw [hfile] at hfile'
      cases hfile'
      rfl

/-- Whoever holds the lock is who the file names. -/
theorem Inv.held_of_names (h : Inv pid s) {file : LockFile} {owner : LockOwner}
    (hfile : s.file = some file) (hcontent : file.content = .names owner) {q : Proc}
    (hq : Holder s q) : (s.procs q).held = some owner ∧ pid q = owner.pid := by
  obtain ⟨owner', howner'⟩ := Option.isSome_iff_exists.mp hq.2
  obtain ⟨hpid, inode, hfile'⟩ := h.held q owner' hq.1 howner'
  rw [hfile] at hfile'
  cases hfile'
  cases hcontent
  exact ⟨howner', hpid.symm⟩

theorem Inv.free_of_no_file (h : Inv pid s) (hfile : s.file = none) (q : Proc) : ¬ Holder s q := by
  intro hq
  obtain ⟨owner, howner⟩ := Option.isSome_iff_exists.mp hq.2
  obtain ⟨-, inode, hnames⟩ := h.held q owner hq.1 howner
  rw [hfile] at hnames
  cases hnames

/-! ## Steps -/

/-- A stealer about to remove the file it read, while that file stands, takes it from nobody. -/
theorem Inv.free_to_steal (h : Inv pid s) {loop : Acquiring} {read : Reading}
    (hcall : (s.procs p).call = .stealing loop read) (hstands : ReadStands s p .removeStale)
    (q : Proc) : ¬ Holder s q := by
  cases hfile : s.file with
  | none => exact h.free_of_no_file hfile q
  | some file =>
    have hinode := hstands (Or.inl rfl) read (by rw [hcall]; rfl) file hfile
    have hok := h.calls p
    unfold CallOk at hok
    rw [hcall] at hok
    exact hok.2 file hfile hinode q

/-- A process about to remove the file it read its own record from is the only one that can hold the
    lock, and by that record. -/
theorem Inv.own_to_remove (h : Inv pid s) {read : Reading} (hlive : (s.procs p).life = .live)
    (hcall : (s.procs p).call = .unlinking read) (hstands : ReadStands s p .remove) {q : Proc}
    (hq : Holder s q) : q = p ∧ (s.procs q).held = some read.owner := by
  cases hfile : s.file with
  | none => exact absurd hq (h.free_of_no_file hfile q)
  | some file =>
    have hreads : (s.procs p).call.removes = some read := by rw [hcall]; rfl
    have hinode := hstands (Or.inr rfl) read hreads file hfile
    have hok := h.calls p
    unfold CallOk at hok
    rw [hcall] at hok
    obtain ⟨hheld, hpid⟩ := h.held_of_names hfile (hok.1.2 file hfile hinode) hq
    exact ⟨h.distinct q p hq.1 hlive (hpid.trans hok.2), hheld⟩

/-- `release` leaves a process the lock it held by another record than the one it let go. -/
theorem lets_held {process : Process} {owner owner' : LockOwner}
    (h : (process.lets owner).held = some owner') : process.held = some owner' ∧ owner' ≠ owner := by
  by_cases hsame : process.held = some owner
  · simp [Process.lets, hsame] at h
  · simp only [Process.lets, if_neg hsame] at h
    refine ⟨h, ?_⟩
    rintro rfl
    exact hsame h

theorem Process.judged_same (process : Process) (loop : Acquiring) (read : Option Reading)
    (verdict : Verdict) : (process.judged loop read verdict).life = process.life ∧
      (process.judged loop read verdict).held = process.held := by
  cases verdict <;> cases read <;> exact ⟨rfl, rfl⟩

/-- A step that takes the file away or puts a new one in its place. -/
theorem Inv.replaces (h : Inv pid s) (hnext : s.nextInode ≤ t.nextInode)
    (hnew : ∀ file, t.file = some file → s.nextInode ≤ file.inode ∧ file.inode < t.nextInode)
    (hlife : ∀ q, (t.procs q).life = (s.procs q).life)
    (hheld : ∀ q owner, (t.procs q).life = .live → (t.procs q).held = some owner →
      owner.pid = pid q ∧ ∃ inode, t.file = some ⟨inode, .names owner⟩)
    (hunborn : ∀ q, (t.procs q).life ≠ .live → (t.procs q).held.isSome →
      (s.procs q).held.isSome)
    (hcalls : ∀ q, ((t.procs q).call = (s.procs q).call ∧
      ((s.procs q).held.isSome → (t.procs q).held.isSome)) ∨
      CallOk pid t q (t.procs q)) : Inv pid t := by
  have hfollows : Follows s t := ⟨hnext, fun file hfile => Or.inr (hnew file hfile).1⟩
  refine ⟨?_, fun file hfile => (hnew file hfile).2, hheld, ?_, ?_⟩
  · intro a b ha hb
    exact h.distinct a b (hlife a ▸ ha) (hlife b ▸ hb)
  · intro q hq
    cases hs : (t.procs q).held with
    | none => rfl
    | some owner =>
      have hsome := hunborn q (by rw [hq]; intro hc; cases hc) (by rw [hs]; rfl)
      rw [h.unborn q (hlife q ▸ hq)] at hsome
      cases hsome
  · intro q
    rcases hcalls q with ⟨hcall, hkeeps⟩ | hok
    · exact (h.calls q).follows hfollows hcall hkeeps
    · exact hok

/-- What `ask` leaves the call relying on: a file is stolen only where nobody holds the lock while
    it stands. -/
theorem Inv.asks (h : Inv pid s) {loop : Acquiring} {read : Option Reading} {late : Bool}
    {probe : OwnerProbe} {keep : LockOwner → Bool}
    (hcall : (s.procs p).call = .asking loop read) (hprobe : Honest s probe) :
    CallOk pid s p ((s.procs p).judged loop read
      (judge loop.contention late probe keep (read.map (·.owner)))) := by
  cases hverdict : judge loop.contention late probe keep (read.map (·.owner)) with
  | pause => trivial
  | answer error => trivial
  | steal dead =>
    cases read with
    | none =>
      -- a file that names nobody is never stolen
      simp only [judge, Option.map_none] at hverdict
      split at hverdict <;> try split at hverdict
      all_goals cases hverdict
    | some read =>
      have hdead : holderState read.owner probe = .dead := by
        simp only [judge, Option.map_some] at hverdict
        split at hverdict
        · rename_i hsome
          exact Option.some.inj hsome
        · split at hverdict
          · split at hverdict <;> cases hverdict
          · cases hverdict
      have hok := h.calls p
      unfold CallOk at hok
      rw [hcall] at hok
      refine ⟨hok read rfl, ?_⟩
      intro file hfile hinode q hq
      obtain ⟨hheld, -⟩ := h.held_of_names hfile ((hok read rfl).2 file hfile hinode) hq
      exact hprobe q _ hq.1 hheld hdead

variable [DecidableEq Proc]

theorem set_same (s : State Proc) (p : Proc) (process : Process) :
    (s.set p process).procs p = process := if_pos rfl

theorem set_other (s : State Proc) {p q : Proc} (process : Process) (hq : q ≠ p) :
    (s.set p process).procs q = s.procs q := if_neg hq

/-- A step of `p` that leaves the file as it is, and the lock with whoever had it. -/
theorem Inv.moves (h : Inv pid s) {process : Process}
    (hlife : process.life = .live → (s.procs p).life = .live)
    (hheld : ∀ owner, process.held = some owner → (s.procs p).held = some owner)
    (hunborn : process.life ≠ .unborn)
    (hok : CallOk pid s p process) : Inv pid (s.set p process) := by
  have hprocs : ∀ q, (s.set p process).procs q = s.procs q ∨
      q = p ∧ (s.set p process).procs q = process := by
    intro q
    by_cases hq : q = p
    · exact Or.inr ⟨hq, hq ▸ set_same s p process⟩
    · exact Or.inl (set_other s process hq)
  have hlive : ∀ q, ((s.set p process).procs q).life = .live → (s.procs q).life = .live := by
    intro q hq
    rcases hprocs q with hsame | ⟨rfl, hp⟩
    · rwa [hsame] at hq
    · rw [hp] at hq
      exact hlife hq
  have hholds : ∀ q owner, ((s.set p process).procs q).held = some owner →
      (s.procs q).held = some owner := by
    intro q owner hq
    rcases hprocs q with hsame | ⟨rfl, hp⟩
    · rwa [hsame] at hq
    · rw [hp] at hq
      exact hheld owner hq
  have hfollows : Follows s (s.set p process) := by
    refine ⟨Nat.le_refl _, fun file hfile => Or.inl ⟨hfile, ?_⟩⟩
    rintro q ⟨hq, hsome⟩
    obtain ⟨owner, howner⟩ := Option.isSome_iff_exists.mp hsome
    exact ⟨hlive q hq, Option.isSome_iff_exists.mpr ⟨owner, hholds q owner howner⟩⟩
  refine ⟨?_, h.inode, ?_, ?_, ?_⟩
  · intro a b ha hb
    exact h.distinct a b (hlive a ha) (hlive b hb)
  · intro q owner hq howner
    exact h.held q owner (hlive q hq) (hholds q owner howner)
  · intro q hq
    rcases hprocs q with hsame | ⟨rfl, hp⟩
    · rw [hsame] at hq ⊢
      exact h.unborn q hq
    · rw [hp] at hq
      exact absurd hq hunborn
  · intro q
    rcases hprocs q with hsame | ⟨rfl, hp⟩
    · rw [hsame]
      exact (h.calls q).follows hfollows rfl id
    · rw [hp]
      exact hok.follows hfollows rfl id

/-- A process that starts is in no call and holds nothing. -/
theorem Inv.starts (h : Inv pid s) (hlife : (s.procs p).life = .unborn)
    (hpid : ∀ q, (s.procs q).life = .live → pid q ≠ pid p) :
    Inv pid (s.set p { s.procs p with life := .live }) := by
  have hnone := h.unborn p hlife
  have hsome : ∀ q, ((s.set p { s.procs p with life := .live }).procs q).held =
      (s.procs q).held := by
    intro q
    by_cases hq : q = p
    · rw [hq, set_same]
    · rw [set_other s _ hq]
  have hlive : ∀ q, q ≠ p → ((s.set p { s.procs p with life := .live }).procs q).life =
      (s.procs q).life := fun q hq => by rw [set_other s _ hq]
  have hfollows : Follows s (s.set p { s.procs p with life := .live }) := by
    refine ⟨Nat.le_refl _, fun file hfile => Or.inl ⟨hfile, ?_⟩⟩
    rintro q ⟨hq, hheld⟩
    rw [hsome] at hheld
    by_cases hqp : q = p
    · rw [hqp, hnone] at hheld
      cases hheld
    · exact ⟨hlive q hqp ▸ hq, hheld⟩
  refine ⟨?_, h.inode, ?_, ?_, ?_⟩
  · intro a b ha hb hab
    by_cases hap : a = p <;> by_cases hbp : b = p
    · rw [hap, hbp]
    · exact absurd (hap ▸ hab.symm) (hpid b (hlive b hbp ▸ hb))
    · exact absurd (hbp ▸ hab) (hpid a (hlive a hap ▸ ha))
    · exact h.distinct a b (hlive a hap ▸ ha) (hlive b hbp ▸ hb) hab
  · intro q owner hq howner
    rw [hsome] at howner
    by_cases hqp : q = p
    · rw [hqp, hnone] at howner
      cases howner
    · exact h.held q owner (hlive q hqp ▸ hq) howner
  · intro q hq
    rw [hsome]
    by_cases hqp : q = p
    · rw [hqp, hnone]
    · exact h.unborn q (hlive q hqp ▸ hq)
  · intro q
    refine (h.calls q).follows hfollows ?_ (by rw [hsome]; exact id)
    by_cases hqp : q = p
    · rw [hqp, set_same]
    · rw [set_other s _ hqp]

/-- The file goes, and with it the last holder, if there was one. -/
theorem Inv.unlinks (h : Inv pid s) {process : Process} (hlive : (s.procs p).life = .live)
    (hlife : process.life = .live) (hfree : ∀ q, q ≠ p → ¬ Holder s q)
    (hheld : process.held = none) (hok : CallOk pid (s.unlink.set p process) p process) :
    Inv pid (s.unlink.set p process) := by
  refine h.replaces (Nat.le_refl _) (fun file hfile => nomatch hfile) ?_ ?_ ?_ ?_
  · intro q
    by_cases hq : q = p
    · rw [hq, set_same, hlive, hlife]
    · rw [set_other _ _ hq]; rfl
  · intro q owner hq howner
    by_cases hqp : q = p
    · rw [hqp, set_same, hheld] at howner
      cases howner
    · rw [set_other _ _ hqp] at hq howner
      exact absurd ⟨hq, Option.isSome_iff_exists.mpr ⟨owner, howner⟩⟩ (hfree q hqp)
  · intro q hq hsome
    by_cases hqp : q = p
    · rw [hqp, set_same, hheld] at hsome
      cases hsome
    · rwa [set_other _ _ hqp] at hsome
  · intro q
    by_cases hqp : q = p
    · rw [hqp, set_same]
      exact Or.inr hok
    · rw [set_other _ _ hqp]
      exact Or.inl ⟨rfl, id⟩

/-- `create_new` found no file: this process is the one holder from here on. -/
theorem Inv.creates (h : Inv pid s) (hlive : (s.procs p).life = .live) (hfile : s.file = none)
    {acquired : Acquired} (hpid : acquired.owner.pid = pid p) :
    Inv pid ((s.place acquired.owner).set p ((s.procs p).takes acquired)) := by
  refine h.replaces (Nat.le_succ _) ?_ ?_ ?_ ?_ ?_
  · intro file hnew
    cases hnew
    exact ⟨Nat.le_refl _, Nat.lt_succ_self _⟩
  · intro q
    by_cases hq : q = p
    · rw [hq, set_same]; rfl
    · rw [set_other _ _ hq]; rfl
  · intro q owner hq howner
    by_cases hqp : q = p
    · rw [hqp, set_same] at howner
      cases howner
      exact ⟨hqp ▸ hpid, s.nextInode, rfl⟩
    · rw [set_other _ _ hqp] at hq howner
      exact absurd ⟨hq, Option.isSome_iff_exists.mpr ⟨owner, howner⟩⟩ (h.free_of_no_file hfile q)
  · intro q hq hsome
    by_cases hqp : q = p
    · rw [hqp, set_same] at hq
      exact absurd hlive hq
    · rwa [set_other _ _ hqp] at hsome
  · intro q
    by_cases hqp : q = p
    · rw [hqp, set_same]
      exact Or.inr (.of_rest rfl)
    · rw [set_other _ _ hqp]
      exact Or.inl ⟨rfl, id⟩

theorem handedOn_other {q : Proc} (hq : q ≠ p) : handedOn s p q = s.procs q := if_neg hq

theorem handed_of (record : LockOwner) (q : Proc) :
    handed pid s p record q = { handedOn s p q with held := some record } ∧ pid q = record.pid ∧
        (handedOn s p q).life = .live ∨
      handed pid s p record q = handedOn s p q := by
  by_cases hto : (handedOn s p q).life = .live ∧ pid q = record.pid
  · exact Or.inl ⟨if_pos hto, hto.2, hto.1⟩
  · exact Or.inr (if_neg hto)

/-- Who holds the lock after a hand-over holds it by the record that was written. -/
theorem handed_holder {record owner : LockOwner} (h : Inv pid s) (hp : Holder s p) {q : Proc}
    (hlive : (handed pid s p record q).life = .live)
    (hheld : (handed pid s p record q).held = some owner) :
    owner = record ∧ pid q = record.pid := by
  rcases handed_of record q with ⟨hto, hpid, -⟩ | hto
  · rw [hto] at hheld
    cases hheld
    exact ⟨rfl, hpid⟩
  · rw [hto] at hlive hheld
    by_cases hqp : q = p
    · rw [hqp, handedOn, if_pos rfl] at hheld
      cases hheld
    · rw [handedOn_other hqp] at hlive hheld
      exact absurd (h.exclusive ⟨hlive, Option.isSome_iff_exists.mpr ⟨owner, hheld⟩⟩ hp) hqp

theorem handed_life (record : LockOwner) (q : Proc) :
    (handed pid s p record q).life = (s.procs q).life := by
  have hon : (handedOn s p q).life = (s.procs q).life := by
    by_cases hqp : q = p
    · rw [hqp, handedOn, if_pos rfl]
      rfl
    · rw [handedOn_other hqp]
  rcases handed_of record q with ⟨hto, -, -⟩ | hto
  · rw [hto]
    exact hon
  · rw [hto]
    exact hon

theorem handed_call (record : LockOwner) {q : Proc} (hq : q ≠ p) :
    (handed pid s p record q).call = (s.procs q).call ∧
      ((s.procs q).held.isSome → (handed pid s p record q).held.isSome) := by
  rcases handed_of record q with ⟨hto, -, -⟩ | hto
  · rw [hto, handedOn_other hq]
    exact ⟨rfl, fun _ => rfl⟩
  · rw [hto, handedOn_other hq]
    exact ⟨rfl, id⟩

theorem handed_rest (record : LockOwner) : (handed pid s p record p).call = .rest := by
  rcases handed_of record p with ⟨hto, -, -⟩ | hto
  · rw [hto, handedOn, if_pos rfl]
    rfl
  · rw [hto, handedOn, if_pos rfl]
    rfl

/-- `replace` wrote another holder over this one. -/
theorem Inv.writes (h : Inv pid s) (hp : Holder s p) {record : LockOwner} :
    Inv pid { s.place record with procs := handed pid s p record } := by
  refine h.replaces (Nat.le_succ _) ?_ (handed_life record) ?_ ?_ ?_
  · intro file hnew
    cases hnew
    exact ⟨Nat.le_refl _, Nat.lt_succ_self _⟩
  · intro q owner hq howner
    obtain ⟨rfl, hpid⟩ := handed_holder h hp hq howner
    exact ⟨hpid.symm, s.nextInode, rfl⟩
  · intro q hq hsome
    rcases handed_of record q with ⟨hto, -, hlive⟩ | hto
    · refine absurd ?_ hq
      change (handed pid s p record q).life = .live
      rw [hto]
      exact hlive
    · change (handed pid s p record q).held.isSome at hsome
      by_cases hqp : q = p
      · rw [hqp]
        exact hp.2
      · rwa [hto, handedOn_other hqp] at hsome
  · intro q
    by_cases hqp : q = p
    · exact Or.inr (.of_rest (hqp ▸ handed_rest record))
    · exact Or.inl (handed_call record hqp)

/-- **One step**: the invariant lasts over any step that finds what it removes as it read it. -/
theorem Inv.step (h : Inv pid s) {act : Act} (hstep : Step pid s p act t)
    (hstands : ReadStands s p act) : Inv pid t := by
  have hborn : ∀ {process : Process}, process.life = .live → process.life ≠ .unborn := by
    intro process hlife hunborn
    rw [hlife] at hunborn
    cases hunborn
  have hok := h.calls p
  unfold CallOk at hok
  -- a step that leaves the process in a call that relies on nothing
  have hplain : ∀ process : Process, (s.procs p).life = .live → process.life = .live →
      (∀ owner, process.held = some owner → (s.procs p).held = some owner) →
      CallOk pid s p process → Inv pid (s.set p process) := by
    intro process hlive hlife hheld hok
    exact h.moves (fun _ => hlive) hheld (hborn hlife) hok
  cases hstep with
  | start hlife hpid => exact h.starts hlife hpid
  | die hlife =>
    exact h.moves (fun hc => nomatch hc) (fun _ hc => hc) (fun hc => nomatch hc) (h.calls p)
  | acquire contention hlife hcall => exact hplain _ hlife hlife (fun _ hc => hc) trivial
  | create loop probe now hlife hcall hfile =>
    have howner : (acquiredAs (recordOf (pid p) probe now) loop.stolenFrom).owner =
        recordOf (pid p) probe now := by
      cases loop.stolenFrom <;> rfl
    have hcreates := @Inv.creates _ pid s p _ h hlife hfile
      (acquiredAs (recordOf (pid p) probe now) loop.stolenFrom) (by rw [howner]; rfl)
    rwa [howner] at hcreates
  | exists_ loop file hlife hcall hfile => exact hplain _ hlife hlife (fun _ hc => hc) trivial
  | read loop hlife hcall =>
    refine hplain _ hlife hlife (fun _ hc => hc) ?_
    exact fun read hread => read_of_file h.inode hread
  | readFails loop hlife hcall =>
    refine hplain _ hlife hlife (fun _ hc => hc) ?_
    exact fun read hread => nomatch hread
  | ask loop read late probe keep hlife hcall hprobe =>
    obtain ⟨hlife', hheld'⟩ := (s.procs p).judged_same loop read
      (judge loop.contention late probe keep (read.map (·.owner)))
    exact hplain _ hlife (hlife'.trans hlife) (fun owner hc => hheld' ▸ hc) (h.asks hcall hprobe)
  | removeStale loop read hlife hcall =>
    have hfree := h.free_to_steal hcall hstands
    refine h.unlinks hlife hlife (fun q _ => hfree q) ?_ trivial
    cases hheld : (s.procs p).held with
    | none => exact hheld
    | some owner => exact absurd ⟨hlife, Option.isSome_iff_exists.mpr ⟨owner, hheld⟩⟩ (hfree p)
  | beat loop hlife hcall => exact hplain _ hlife hlife (fun _ hc => hc) trivial
  | cancel loop hlife hcall => exact hplain _ hlife hlife (fun _ hc => hc) trivial
  | handOver heir owner hlife hcall hheld =>
    refine hplain _ hlife hlife (fun _ hc => hc) ?_
    exact Option.isSome_iff_exists.mpr ⟨owner, hheld⟩
  | write heir probe now hlife hcall =>
    rw [hcall] at hok
    exact h.writes ⟨hlife, hok⟩
  | release owner hlife hcall howner => exact hplain _ hlife hlife (fun _ hc => hc) howner
  | readBack owner read hlife hcall hread hnames =>
    rw [hcall] at hok
    refine hplain _ hlife hlife (fun _ hc => hc) ?_
    exact ⟨read_of_file h.inode hread, hnames ▸ hok⟩
  | movedOn owner hlife hcall hread =>
    exact hplain _ hlife hlife (fun _ hc => (lets_held hc).1) trivial
  | remove read hlife hcall =>
    have hown := fun q => @Inv.own_to_remove _ pid s p h read hlife hcall hstands q
    refine h.unlinks hlife hlife (fun q hq hheld => hq (hown q hheld).1) ?_ trivial
    cases hheld : ((s.procs p).lets read.owner).held with
    | none => rfl
    | some owner =>
      obtain ⟨hsame, hne⟩ := lets_held hheld
      have hfile := (hown p ⟨hlife, Option.isSome_iff_exists.mpr ⟨owner, hsame⟩⟩).2
      exact absurd (Option.some.inj (hsame.symm.trans hfile)) hne
  | fail error hlife hfail => exact hplain _ hlife hlife (fun _ hc => hc) trivial

/-- What the invariant says of the lock. -/
theorem Inv.oneHolder (h : Inv pid s) : OneHolder pid ReadStands s := by
  refine ⟨fun p q hp hq => h.exclusive hp hq, ?_⟩
  intro p act t hstep hstands q hqp hq
  cases hstep with
  | create loop probe now hlife hcall hfile => exact absurd hq (h.free_of_no_file hfile q)
  | removeStale loop read hlife hcall => exact absurd hq (h.free_to_steal hcall hstands q)
  | write heir probe now hlife hcall =>
    have hok := h.calls p
    unfold CallOk at hok
    rw [hcall] at hok
    exact absurd (h.exclusive hq ⟨hlife, hok⟩) hqp
  | remove read hlife hcall => exact absurd (h.own_to_remove hlife hcall hstands hq).1 hqp
  | _ => rfl

/-- **One holder.**  In every run whose removals find the file they read, no two live processes hold
    the lock at once, and none loses its file to another. -/
theorem lock_one_holder {s₀ : State Proc} (hinit : Initial pid s₀) (hrun : Runs pid ReadStands s₀ s) :
    OneHolder pid ReadStands s := by
  have hinv : Inv pid s := by
    induction hrun with
    | refl => exact hinit.inv
    | tail _ hlast ih =>
      obtain ⟨p, act, hstep, hstands⟩ := hlast
      exact ih.step hstep hstands
  exact hinv.oneHolder

/-! ## Two stealers -/

/-- Two live processes, and a lock left by a third that is gone. -/
def racing : State Bool where
  file := some ⟨0, .names ⟨1, 9, 100⟩⟩
  nextInode := 1
  procs _ := ⟨.live, .rest, none, none⟩

def racingPid (p : Bool) : Pid := if p then 2 else 1

def racingProbe : OwnerProbe := ⟨fun pid => if pid = 9 then .dead else .alive, fun _ => none⟩

theorem racing_initial : Initial racingPid racing := by
  refine ⟨fun p => ⟨rfl, rfl⟩, ?_, ?_⟩
  · intro p q _ _
    cases p <;> cases q <;> decide
  · intro file hfile
    cases hfile
    decide

/-- One of the two steals the lock, and the other finds it held. -/
theorem lock_one_holder_stolen : ∃ s, (s.procs false).answer =
      some (.acquired (.stolen ⟨1, 1, 200⟩ ⟨1, 9, 100⟩)) ∧
    OneHolder racingPid ReadStands s := by
  have hstands : ∀ {s : State Bool} {p : Bool} {act : Act}, act ≠ .removeStale ∧ act ≠ .remove →
      ReadStands s p act := fun h hc => absurd hc (not_or.mpr h)
  have hhonest : ∀ {s : State Bool}, (∀ q, (s.procs q).held = none) → Honest s racingProbe := by
    intro s hnone q owner _ hheld
    rw [hnone] at hheld
    cases hheld
  have h0 : Runs racingPid ReadStands racing racing := .refl
  have h1 := h0.tail ⟨false, _, .acquire .refuse rfl rfl, hstands (by decide)⟩
  have h2 := h1.tail ⟨false, _, .exists_ _ _ rfl rfl rfl, hstands (by decide)⟩
  have h3 := h2.tail ⟨false, _, .read _ rfl rfl, hstands (by decide)⟩
  have h4 := h3.tail ⟨false, _, .ask _ _ false racingProbe (fun _ => false) rfl rfl
    (hhonest (by decide)), hstands (by decide)⟩
  have h5 := h4.tail ⟨false, _, .removeStale _ _ rfl rfl, by
    intro _ read hread file hfile
    cases hread
    cases hfile
    rfl⟩
  have h6 := h5.tail ⟨false, _, .create _ racingProbe 200 rfl rfl rfl, hstands (by decide)⟩
  exact ⟨_, rfl, lock_one_holder racing_initial h6⟩

/-- **Two stealers, two holders**: both read the dead holder, and the second removes the file the
    first has just created. -/
theorem not_lock_one_holder : Initial racingPid racing ∧
    ∃ s, Runs racingPid (fun _ _ _ => True) racing s ∧
      Holder s false ∧ Holder s true ∧
      ¬ OneHolder racingPid (fun _ _ _ => True) s := by
  refine ⟨racing_initial, ?_⟩
  have hhonest : ∀ {s : State Bool}, (∀ q, (s.procs q).held = none) → Honest s racingProbe := by
    intro s hnone q owner _ hheld
    rw [hnone] at hheld
    cases hheld
  have h0 : Runs racingPid (fun _ _ _ => True) racing racing := .refl
  have h1 := h0.tail ⟨false, _, .acquire .refuse rfl rfl, trivial⟩
  have h2 := h1.tail ⟨false, _, .exists_ _ _ rfl rfl rfl, trivial⟩
  have h3 := h2.tail ⟨false, _, .read _ rfl rfl, trivial⟩
  have h4 := h3.tail ⟨false, _, .ask _ _ false racingProbe (fun _ => false) rfl rfl
    (hhonest (by decide)), trivial⟩
  have h5 := h4.tail ⟨true, _, .acquire .refuse rfl rfl, trivial⟩
  have h6 := h5.tail ⟨true, _, .exists_ _ _ rfl rfl rfl, trivial⟩
  have h7 := h6.tail ⟨true, _, .read _ rfl rfl, trivial⟩
  have h8 := h7.tail ⟨true, _, .ask _ _ false racingProbe (fun _ => false) rfl rfl
    (hhonest (by decide)), trivial⟩
  -- both are about to remove the dead holder's file
  have h9 := h8.tail ⟨false, _, .removeStale _ _ rfl rfl, trivial⟩
  have h10 := h9.tail ⟨false, _, .create _ racingProbe 200 rfl rfl rfl, trivial⟩
  have h11 := h10.tail ⟨true, _, .removeStale _ _ rfl rfl, trivial⟩
  have h12 := h11.tail ⟨true, _, .create _ racingProbe 200 rfl rfl rfl, trivial⟩
  refine ⟨_, h12, ⟨rfl, rfl⟩, ⟨rfl, rfl⟩, ?_⟩
  rintro ⟨hone, -⟩
  exact absurd (hone false true ⟨rfl, rfl⟩ ⟨rfl, rfl⟩) (by decide)

end Yunta.Lock
