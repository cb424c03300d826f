/-
  The lock file of a checkout, and the calls processes make on it.

  1. **Owners** — the file's content is the holder's `LockOwner`.  `holderState` says whether the
     process a record names is still the one that wrote it, as far as a probe can tell.

  2. **Calls** — `acquire` creates the file, or reads who holds it, asks about that process and
     removes the file of one that is gone; `handOver` writes another process over; `release`
     reads the file back and removes it while it still names its owner.

  3. **Steps** — each operation on the file, and each question to the host, is a step of its own:
     `Step` is one step of one process, and between two steps of a call any other process may take
     any number.  A process may start at any time, and die at any.

  Every write stages a file of its own and renames it into place, so no two writes leave the same
  file: `LockFile.inode` tells one file from another whatever is written in them.
-/
import Mathlib.Data.Option.Basic

set_option linter.unusedVariables false

namespace Yunta.Lock

/-! ## Owners -/

abbrev Pid := Nat

/-- A point on the host's time line. -/
abbrev Instant := Int

/-- What the kernel answers when it is asked about a pid. -/
inductive Liveness where
  | alive | dead | unknown
  deriving DecidableEq

/-- What the host says about a lock's holder. -/
structure OwnerProbe where
  liveness : Pid → Liveness
  started : Pid → Option Instant

/-- Who holds the lock and since when. -/
structure LockOwner where
  schemaVersion : Nat
  pid : Pid
  startedAt : Instant
  deriving DecidableEq

namespace LockOwner

def SCHEMA_VERSION : Nat := 1

end LockOwner

/-- When the process a record names started, as the record has to state it. -/
def takenAt (pid : Pid) (probe : OwnerProbe) (now : Instant) : Instant :=
  (probe.started pid).getD now

/-- The record that names `pid` as the lock's holder. -/
def recordOf (pid : Pid) (probe : OwnerProbe) (now : Instant) : LockOwner :=
  ⟨LockOwner.SCHEMA_VERSION, pid, takenAt pid probe now⟩

/-- Whether the process a record names is still the process that wrote the record. -/
def holderState (owner : LockOwner) (probe : OwnerProbe) : Liveness :=
  match probe.liveness owner.pid with
  | .alive =>
    match probe.started owner.pid with
    -- a newcomer that got the holder's pid, not the holder
    | some started => if started > owner.startedAt then .dead else .alive
    | none => .alive
  | other => other

/-! ## Calls -/

/-- What to do while another process holds the lock. -/
inductive Contention where
  | refuse
  | wait (patience poll : Nat)
  deriving DecidableEq

/-- How the lock was taken. -/
inductive Acquired where
  | fresh (owner : LockOwner)
  | stolen (owner dead : LockOwner)
  deriving DecidableEq

def Acquired.owner : Acquired → LockOwner
  | fresh owner => owner
  | stolen owner _ => owner

inductive LockError where
  | held (owner : LockOwner) (liveness : Liveness)
  | unreadable
  | timeout (owner : Option LockOwner)
  | io (action : String)
  | kept (owner : LockOwner)
  | cancelled
  deriving DecidableEq

/-- What a call answered. -/
inductive Answer where
  | acquired (acquired : Acquired)
  | ok
  | err (error : LockError)
  deriving DecidableEq

/-- How `acquire` answers once the file is its own. -/
def acquiredAs (record : LockOwner) : Option LockOwner → Acquired
  | some dead => .stolen record dead
  | none => .fresh record

/-- Why a present lock cannot be taken. -/
def refusal : Option LockOwner → Option Liveness → LockError
  | some owner, some liveness => .held owner liveness
  | _, _ => .unreadable

/-- Where `acquire` goes once it knows what the lock's holder is. -/
inductive Verdict where
  | steal (dead : LockOwner)
  | pause
  | answer (error : LockError)

/-- `late` is whether the deadline of a wait has passed; `keep` answers whether the work a gone
    holder left is still going on. -/
def judge (contention : Contention) (late : Bool) (probe : OwnerProbe) (keep : LockOwner → Bool)
    (owner : Option LockOwner) : Verdict :=
  let liveness := owner.map (holderState · probe)
  match owner, liveness with
  | some dead, some .dead => if keep dead then .answer (.kept dead) else .steal dead
  | _, _ =>
    -- alive, unknown, or unreadable: present
    match contention with
    | .wait _ _ => if late then .answer (.timeout owner) else .pause
    | .refuse => .answer (refusal owner liveness)

/-! ## The file and the processes -/

/-- What a lock file's bytes read as. -/
inductive Content where
  | names (owner : LockOwner)
  | unreadable
  deriving DecidableEq

def Content.owner : Content → Option LockOwner
  | names owner => some owner
  | unreadable => none

structure LockFile where
  inode : Nat
  content : Content
  deriving DecidableEq

/-- A record, and the file it was read from. -/
structure Reading where
  inode : Nat
  owner : LockOwner
  deriving DecidableEq

/-- The record a lock file names, when the file is there and reads as one. -/
def readHolder (file : Option LockFile) : Option Reading :=
  file.bind fun file => file.content.owner.map fun owner => ⟨file.inode, owner⟩

/-- The loop of `acquire`: what it was called with, and the gone holder it removed last. -/
structure Acquiring where
  contention : Contention
  stolenFrom : Option LockOwner

/-- The step a process takes next. -/
inductive Call where
  | rest
  | creating (loop : Acquiring)
  | reading (loop : Acquiring)
  | asking (loop : Acquiring) (read : Option Reading)
  | stealing (loop : Acquiring) (read : Reading)
  | pausing (loop : Acquiring)
  | handing (pid : Pid)
  | releasing (owner : LockOwner)
  | unlinking (read : Reading)

/-- The file the call removes next. -/
def Call.removes : Call → Option Reading
  | stealing _ read => some read
  | unlinking read => some read
  | _ => none

inductive Life where
  | unborn | live | gone
  deriving DecidableEq

structure Process where
  life : Life
  call : Call
  /-- The record this process holds the lock by: `acquire` answered it or a hand-over named it, and
      it has neither released the lock nor handed it on. -/
  held : Option LockOwner
  /-- What its last call answered. -/
  answer : Option Answer

structure State (Proc : Type) where
  file : Option LockFile
  /-- Above every inode used so far. -/
  nextInode : Nat
  procs : Proc → Process

/-! ## Steps -/

inductive Act where
  | start | die | call | create | read | ask | removeStale | beat | write | readBack | remove | fail
  deriving DecidableEq

variable {Proc : Type} [DecidableEq Proc]

namespace State

/-- Process `p` goes from where it is to `process`. -/
def set (s : State Proc) (p : Proc) (process : Process) : State Proc :=
  { s with procs := fun q => if q = p then process else s.procs q }

/-- A staged file is renamed into place. -/
def place (s : State Proc) (owner : LockOwner) : State Proc :=
  { s with file := some ⟨s.nextInode, .names owner⟩, nextInode := s.nextInode + 1 }

/-- The file's name is taken away, whatever file has it. -/
def unlink (s : State Proc) : State Proc :=
  { s with file := none }

end State

namespace Process

/-- Goes on to the next step of its call. -/
def goes (process : Process) (call : Call) : Process :=
  { process with call := call }

/-- Its call returns. -/
def answers (process : Process) (answer : Answer) : Process :=
  { process with call := .rest, answer := some answer }

/-- `acquire` answers the record this process is the holder by. -/
def takes (process : Process) (acquired : Acquired) : Process :=
  { process.answers (.acquired acquired) with held := some acquired.owner }

/-- `release` is done with the lock of `owner`. -/
def lets (process : Process) (owner : LockOwner) : Process :=
  { process.answers .ok with held := if process.held = some owner then none else process.held }

end Process

/-- `acquire` after it read and asked. -/
def Process.judged (process : Process) (loop : Acquiring) (read : Option Reading) :
    Verdict → Process
  | .steal _ =>
    match read with
    | some read => process.goes (.stealing loop read)
    | none => process
  | .pause => process.goes (.pausing loop)
  | .answer error => process.answers (.err error)

/-- Where every process stands once `p`'s hand-over has answered. -/
def handedOn (s : State Proc) (p q : Proc) : Process :=
  if q = p then { (s.procs p).answers .ok with held := none } else s.procs q

/-- Where every process stands once `p` has written `record` over the lock: a live process with the
    pid it names holds the lock from here on, and `p` does no longer. -/
def handed (pid : Proc → Pid) (s : State Proc) (p : Proc) (record : LockOwner) (q : Proc) :
    Process :=
  if (handedOn s p q).life = .live ∧ pid q = record.pid then
    { handedOn s p q with held := some record }
  else handedOn s p q

/-- What an operation of a call that failed reports. -/
def Call.failure : Call → Option LockError
  | creating _ => some (.io "create")
  | stealing _ _ => some (.io "remove the stale")
  | handing _ => some (.io "write the holder of")
  | releasing _ | unlinking _ => some (.io "remove")
  | _ => none

/-- A probe answers `dead` only for a process that died: never about the record a live process
    holds the lock by. -/
def Honest (s : State Proc) (probe : OwnerProbe) : Prop :=
  ∀ q owner, (s.procs q).life = .live → (s.procs q).held = some owner →
    holderState owner probe ≠ .dead

/-- One step of process `p`.  `pid` is the pid each process has while it lives. -/
inductive Step (pid : Proc → Pid) (s : State Proc) (p : Proc) : Act → State Proc → Prop
  | start (hlife : (s.procs p).life = .unborn)
      (hpid : ∀ q, (s.procs q).life = .live → pid q ≠ pid p) :
      Step pid s p .start (s.set p { s.procs p with life := .live })
  | die (hlife : (s.procs p).life = .live) :
      Step pid s p .die (s.set p { s.procs p with life := .gone })
  | acquire (contention : Contention) (hlife : (s.procs p).life = .live)
      (hcall : (s.procs p).call = .rest) :
      Step pid s p .call (s.set p ((s.procs p).goes (.creating ⟨contention, none⟩)))
  | create (loop : Acquiring) (probe : OwnerProbe) (now : Instant)
      (hlife : (s.procs p).life = .live) (hcall : (s.procs p).call = .creating loop)
      (hfile : s.file = none) :
      Step pid s p .create
        ((s.place (recordOf (pid p) probe now)).set p
          ((s.procs p).takes (acquiredAs (recordOf (pid p) probe now) loop.stolenFrom)))
  | exists_ (loop : Acquiring) (file : LockFile) (hlife : (s.procs p).life = .live)
      (hcall : (s.procs p).call = .creating loop) (hfile : s.file = some file) :
      Step pid s p .create (s.set p ((s.procs p).goes (.reading loop)))
  | read (loop : Acquiring) (hlife : (s.procs p).life = .live)
      (hcall : (s.procs p).call = .reading loop) :
      Step pid s p .read (s.set p ((s.procs p).goes (.asking loop (readHolder s.file))))
  | readFails (loop : Acquiring) (hlife : (s.procs p).life = .live)
      (hcall : (s.procs p).call = .reading loop) :
      Step pid s p .read (s.set p ((s.procs p).goes (.asking loop none)))
  | ask (loop : Acquiring) (read : Option Reading) (late : Bool) (probe : OwnerProbe)
      (keep : LockOwner → Bool) (hlife : (s.procs p).life = .live)
      (hcall : (s.procs p).call = .asking loop read) (hprobe : Honest s probe) :
      Step pid s p .ask
        (s.set p ((s.procs p).judged loop read
          (judge loop.contention late probe keep (read.map (·.owner)))))
  | removeStale (loop : Acquiring) (read : Reading) (hlife : (s.procs p).life = .live)
      (hcall : (s.procs p).call = .stealing loop read) :
      Step pid s p .removeStale
        (s.unlink.set p ((s.procs p).goes (.creating { loop with stolenFrom := some read.owner })))
  | beat (loop : Acquiring) (hlife : (s.procs p).life = .live)
      (hcall : (s.procs p).call = .pausing loop) :
      Step pid s p .beat (s.set p ((s.procs p).goes (.creating loop)))
  | cancel (loop : Acquiring) (hlife : (s.procs p).life = .live)
      (hcall : (s.procs p).call = .pausing loop) :
      Step pid s p .beat (s.set p ((s.procs p).answers (.err .cancelled)))
  | handOver (heir : Pid) (owner : LockOwner) (hlife : (s.procs p).life = .live)
      (hcall : (s.procs p).call = .rest) (hheld : (s.procs p).held = some owner) :
      Step pid s p .call (s.set p ((s.procs p).goes (.handing heir)))
  | write (heir : Pid) (probe : OwnerProbe) (now : Instant) (hlife : (s.procs p).life = .live)
      (hcall : (s.procs p).call = .handing heir) :
      Step pid s p .write
        { s.place (recordOf heir probe now) with
          procs := handed pid s p (recordOf heir probe now) }
  | release (owner : LockOwner) (hlife : (s.procs p).life = .live)
      (hcall : (s.procs p).call = .rest) (howner : owner.pid = pid p) :
      Step pid s p .call (s.set p ((s.procs p).goes (.releasing owner)))
  | readBack (owner : LockOwner) (read : Reading) (hlife : (s.procs p).life = .live)
      (hcall : (s.procs p).call = .releasing owner) (hread : readHolder s.file = some read)
      (hnames : read.owner = owner) :
      Step pid s p .readBack (s.set p ((s.procs p).goes (.unlinking read)))
  | movedOn (owner : LockOwner) (hlife : (s.procs p).life = .live)
      (hcall : (s.procs p).call = .releasing owner)
      (hread : ∀ read, readHolder s.file = some read → read.owner ≠ owner) :
      Step pid s p .readBack (s.set p ((s.procs p).lets owner))
  | remove (read : Reading) (hlife : (s.procs p).life = .live)
      (hcall : (s.procs p).call = .unlinking read) :
      Step pid s p .remove (s.unlink.set p ((s.procs p).lets read.owner))
  | fail (error : LockError) (hlife : (s.procs p).life = .live)
      (hfail : (s.procs p).call.failure = some error) :
      Step pid s p .fail (s.set p ((s.procs p).answers (.err error)))

end Yunta.Lock
