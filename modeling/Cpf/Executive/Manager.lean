import Cpf.Basics.LinkedList
import Cpf.Executive.CheckpointSpec

/-!
# The checkpoint manager

The checkpoint objects in shared memory and the two lists of the manager. Objects are numbered in
the order of their allocation. Each function is one critical section of the manager's lock, or one
pass of a loop between two of them.
-/

namespace Cpf.Executive

def gigabyte : ℕ := 2 ^ 30

def maxCheckpoint : ℕ := 128 * gigabyte

structure Manager where
  totalCheckpointObjects : ℕ
  mainCheckpoint : ℕ
  used : Ends ℕ
  free : Ends ℕ
  links : Links ℕ
  chkpt : ℕ → Checkpoint
  reduxUsed : ℕ → ℕ
  lock : ℕ → Bool

/-- The sizes that the manager looks at, each a `Len`. -/
structure Sizes where
  sizeofPrivate : ℕ
  sizeofRedux : ℕ
  private_lt : sizeofPrivate < 2 ^ 32
  redux_lt : sizeofRedux < 2 ^ 32

/-- What `__specpriv_get_checkpoint_for_iter` has come to when it leaves the critical section: an old
checkpoint, a new one, the wait for a free object, or a failed assertion. -/
inductive Request
  | old (chkpt : ℕ)
  | new (chkpt : ℕ) (m : Manager)
  | wait
  | abort

/-- The search of `__specpriv_get_checkpoint_for_iter` in the used list. -/
inductive Lookup
  | found (chkpt : ℕ)
  | absent
  | fails
  deriving DecidableEq

namespace Manager

def setChkpt (m : Manager) (o : ℕ) (c : Checkpoint) : Manager :=
  { m with chkpt := Function.update m.chkpt o c }

def setType (m : Manager) (o : ℕ) (t : CheckpointLife) : Manager :=
  m.setChkpt o { m.chkpt o with type := t }

def setLock (m : Manager) (o : ℕ) (b : Bool) : Manager :=
  { m with lock := Function.update m.lock o b }

def usedObjects (m : Manager) : List ℕ := m.links.walk m.totalCheckpointObjects m.used.first

def countMemoryUsedByCheckpoint (m : Manager) (o : ℕ) : ℕ :=
  let range := (m.chkpt o).priv.range
  let shadow := range.highestExclusive - range.lowestInclusive
  shadow + shadow + m.reduxUsed o

def isSaturated (m : Manager) (z : Sizes) : Bool :=
  decide (1 < m.usedObjects.length ∧
    maxCheckpoint < z.sizeofPrivate + z.sizeofPrivate + z.sizeofRedux +
      (m.usedObjects.map m.countMemoryUsedByCheckpoint).sum)

def lookup (m : Manager) (iter : ℕ) : List ℕ → Lookup
  | [] => .absent
  | o :: os =>
      if (m.chkpt o).iteration = iter then .found o
      else if (m.chkpt o).iteration < iter then lookup m iter os
      else .fails

def popFree (m : Manager) (o : ℕ) : Manager :=
  let r := m.links.popFront m.free o
  { m with links := r.1, free := r.2 }

def pushUsed (m : Manager) (o : ℕ) : Manager :=
  let r := m.links.pushBack m.used o
  { m with links := r.1, used := r.2 }

/-- A new object; its other fields hold what the memory held. -/
def newObject (m : Manager) : Manager :=
  let o := m.totalCheckpointObjects
  { (m.setChkpt o { m.chkpt o with type := .clFree, numWorkers := 0, ioEvents := IOEvtSet.empty })
    with
    totalCheckpointObjects := o + 1
    lock := Function.update m.lock o false
    links := (m.links.setNext o none).setPrev o none }

/-- One pass of the loop of `__specpriv_alloc_checkpoint`; `none` if the worker has to wait. -/
def allocCheckpoint (m : Manager) (z : Sizes) : Option (ℕ × Manager) :=
  match m.free.first with
  | some o => some (o, (m.popFree o).setType o .clFree)
  | none =>
      if m.isSaturated z then none else some (m.totalCheckpointObjects, m.newObject)

/-- The end of `__specpriv_get_checkpoint_for_iter`: a new checkpoint for `iter`. -/
def createCheckpoint (m : Manager) (z : Sizes) (iter : ℕ) : Request :=
  match m.allocCheckpoint z with
  | none => .wait
  | some (o, m) =>
      let m := m.setChkpt o { m.chkpt o with numWorkers := 0, type := .clPartial, iteration := iter }
      .new o (pushUsed { m with reduxUsed := Function.update m.reduxUsed o z.sizeofRedux } o)

def getCheckpointForIter (m : Manager) (z : Sizes) (iter : ℕ) : Request :=
  match m.lookup iter m.usedObjects with
  | .found o => .old o
  | .fails => .abort
  | .absent => m.createCheckpoint z iter

/-- The first object of the used list, which is `o`, goes to the end of the free list. -/
def retire (m : Manager) (o : ℕ) : Manager :=
  let r := m.links.popFront m.used o
  let r' := r.1.pushBack m.free o
  { m with links := r'.1, used := r.2, free := r'.2 }

/-- `__specpriv_init_checkpoint_manager`, in a memory that holds `chkpt` and `reduxUsed`. -/
def initCheckpointManager (chkpt : ℕ → Checkpoint) (reduxUsed : ℕ → ℕ) : Manager where
  totalCheckpointObjects := 1
  mainCheckpoint := 0
  used := ⟨none, none⟩
  free := ⟨none, none⟩
  links := ⟨fun _ => none, fun _ => none⟩
  chkpt := chkpt
  reduxUsed := reduxUsed
  lock := fun _ => false

end Manager

/-- Where a process is in `__specpriv_commit_zero_or_more_checkpoints`; every read of a field that
its lock does not guard is a step. -/
inductive CommitPc
  | readFirst
  | readAlpha (alpha : ℕ)
  | readNext (alpha : ℕ)
  | readBeta (alpha beta : ℕ)
  | lockAlpha (alpha beta : ℕ)
  | lockBeta (alpha beta : ℕ)
  | recheck (alpha beta : ℕ)
  | combine (alpha beta : ℕ)
  | conflict (alpha beta : ℕ)
  | retire (alpha beta : ℕ)
  | unlock (alpha beta : ℕ)
  deriving DecidableEq

/-- The outcome of a step of `__specpriv_commit_zero_or_more_checkpoints`. -/
inductive CommitOutcome
  | next (m : Manager) (pc : CommitPc)
  | returns (m : Manager)
  | misspecAt (m : Manager) (iter : ℕ)
  | abort

/-- The test of `alpha` and `beta` once their locks are held. -/
def Manager.bothComplete (m : Manager) (alpha beta : ℕ) : Bool :=
  decide ((m.chkpt alpha).type = .clComplete ∧ m.links.next alpha = some beta ∧
    (m.chkpt beta).type = .clComplete)

/-- `__specpriv_commit_zero_or_more_checkpoints`; `none` while a lock is taken. -/
def Config.commitStep (cfg : Config) (m : Manager) : CommitPc → Option CommitOutcome
  | .readFirst =>
      match m.used.first with
      | none => some (.returns m)
      | some alpha => some (.next m (.readAlpha alpha))
  | .readAlpha alpha =>
      if (m.chkpt alpha).type = .clComplete then some (.next m (.readNext alpha))
      else some (.returns m)
  | .readNext alpha =>
      match m.links.next alpha with
      | none => some (.returns m)
      | some beta => some (.next m (.readBeta alpha beta))
  | .readBeta alpha beta =>
      if (m.chkpt beta).type = .clComplete then some (.next m (.lockAlpha alpha beta))
      else some (.returns m)
  | .lockAlpha alpha beta =>
      if m.lock alpha then none else some (.next (m.setLock alpha true) (.lockBeta alpha beta))
  | .lockBeta alpha beta =>
      if m.lock beta then none else some (.next (m.setLock beta true) (.recheck alpha beta))
  | .recheck alpha beta =>
      if m.bothComplete alpha beta then
        some (.next (m.setType alpha .clFree) (.combine alpha beta))
      else some (.next m (.unlock alpha beta))
  | .combine alpha beta =>
      match cfg.combineCheckpoints (m.chkpt alpha) (m.chkpt beta) with
      | .ok r => some (.next (m.setChkpt beta r.1) (.retire alpha beta))
      | .error newer =>
          some (.next (m.setChkpt beta { newer with type := .clBroken }) (.conflict alpha beta))
  | .conflict alpha beta =>
      some (.misspecAt ((m.setLock beta false).setLock alpha false) (m.chkpt beta).iteration)
  | .retire alpha beta =>
      if m.used.first = some alpha then some (.next (m.retire alpha) (.unlock alpha beta))
      else some .abort
  | .unlock alpha beta => some (.returns ((m.setLock beta false).setLock alpha false))

end Cpf.Executive
