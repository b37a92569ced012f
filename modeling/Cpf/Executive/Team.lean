import Cpf.Basics.Trans
import Cpf.Executive.ManagerLists

/-!
# The main process and its workers on shared memory

The workers wait at their pipes, run an invocation, merge into checkpoints and commit them, and
return to the pipes; the main process starts them, waits for them and takes over the checkpoints.
A step is one critical section of the manager's lock, or one read or write outside of it. The
contents of the workers' heaps are left open: a worker merges any values. The fields below
`firstIter` record what has happened and are not read by the code.
-/

namespace Cpf.Executive

/-- Where a commit of a worker returns to: the end of its checkpoint, after its merge into `chkpt`,
or the loop in which it waits for a free object. -/
inductive Return
  | merged (isFinalCheckpoint : Bool) (chkpt : ℕ)
  | waiting (isFinalCheckpoint : Bool)
  deriving DecidableEq

/-- Where a worker is. `teardown` and `setFlag` are the common end of `__specpriv_misspec_at` and of
`__specpriv_worker_finishes`. -/
inductive WorkerPc
  | pipe
  | iterate
  | request (isFinalCheckpoint : Bool)
  | wait (isFinalCheckpoint : Bool)
  | retry (isFinalCheckpoint : Bool)
  | lockChkpt (isFinalCheckpoint : Bool) (chkpt : ℕ)
  | merge (isFinalCheckpoint : Bool) (chkpt : ℕ)
  | commit (pc : CommitPc) (ret : Return)
  | teardown
  | setFlag
  | aborted
  deriving DecidableEq

/-- Where the main process is: outside of an invocation, before the start of worker `wid`, in the
two loops of `__specpriv_join_children`, in `__specpriv_distill_checkpoints_into_liveout`, in the
recovery, or behind a call of `__specpriv_misspec_at`. -/
inductive MainPc
  | idle
  | trigger (wid : ℕ)
  | spin
  | allDone
  | commit (pc : CommitPc)
  | adopt
  | squash
  | recover
  | lost
  | aborted
  deriving DecidableEq

/-- A worker process. `mounted`: it has its own versions of the heaps. `message`: what the main
process has written to its pipe. `asked` records that it was given the checkpoints of its requests
below. -/
structure Member where
  pc : WorkerPc
  currentIter : ℕ
  mounted : Bool
  message : Option ℕ
  asked : ℕ

/-- The shared control block, the processes, and the record: the workers that have merged into an
object since it was taken for a checkpoint; since the workers were started, the objects that were
given out for an iteration and the iterations of the checkpoints that were combined into the next
one; and who has called `__specpriv_misspec_at`, where `none` is the main process. -/
structure Team (cfg : Config) where
  misspeculationHappened : Bool
  misspeculatedIteration : ℕ
  checkpoints : Manager
  workerDoneFlags : Fin cfg.numWorkers → Bool
  main : MainPc
  members : Fin cfg.numWorkers → Member
  firstIter : ℕ
  merged : ℕ → Finset (Fin cfg.numWorkers)
  issued : List (ℕ × ℕ)
  combined : List ℕ
  misspecBy : List (Option (Fin cfg.numWorkers))

inductive TeamAction (cfg : Config)
  | beginInvocation
  | trigger
  | almostDone
  | allDone
  | mainCommit
  | adopt
  | squash
  | recovered (exits : Bool)
  | start (w : Fin cfg.numWorkers)
  | checkpoint (w : Fin cfg.numWorkers) (iter : ℕ) (isFinalCheckpoint : Bool)
  | misspec (w : Fin cfg.numWorkers) (iter : ℕ)
  | leave (w : Fin cfg.numWorkers) (iter : ℕ)
  | get (w : Fin cfg.numWorkers)
  | giveUp (w : Fin cfg.numWorkers)
  | poll (w : Fin cfg.numWorkers)
  | wake (w : Fin cfg.numWorkers)
  | retry (w : Fin cfg.numWorkers)
  | lock (w : Fin cfg.numWorkers)
  | merge (w : Fin cfg.numWorkers) (p : Speculative) (behind : List IOEvt) (copied : ℕ)
  | commit (w : Fin cfg.numWorkers)
  | teardown (w : Fin cfg.numWorkers)
  | setFlag (w : Fin cfg.numWorkers)

namespace Team

variable {cfg : Config}

def setMember (s : Team cfg) (w : Fin cfg.numWorkers) (p : Member) : Team cfg :=
  { s with members := Function.update s.members w p }

def setPc (s : Team cfg) (w : Fin cfg.numWorkers) (pc : WorkerPc) : Team cfg :=
  s.setMember w { s.members w with pc := pc }

def setManager (s : Team cfg) (m : Manager) : Team cfg := { s with checkpoints := m }

def effectiveIter (p : Member) (isFinalCheckpoint : Bool) : ℕ :=
  if isFinalCheckpoint then lastIteration else p.currentIter

/-- Worker `w` comes to iteration `iter`: the calls of `__specpriv_end_iter` on the way see no
misspeculation of an earlier iteration. -/
def Reaches (s : Team cfg) (w : Fin cfg.numWorkers) (iter : ℕ) : Prop :=
  (s.members w).currentIter ≤ iter ∧ (s.misspeculationHappened = true →
    (s.members w).currentIter = iter ∨ iter ≤ s.misspeculatedIteration + 1)

instance (s : Team cfg) (w : Fin cfg.numWorkers) (iter : ℕ) : Decidable (s.Reaches w iter) :=
  inferInstanceAs (Decidable (_ ∧ _))

def misspeculatedBefore (s : Team cfg) (iter : ℕ) : Bool :=
  s.misspeculationHappened && decide (s.misspeculatedIteration ≤ iter)

/-- `__specpriv_misspec_at` by worker `w`, before its heaps are unmounted. -/
def misspecAt (s : Team cfg) (w : Fin cfg.numWorkers) (iter : ℕ) : Team cfg :=
  { s.setPc w .teardown with
    misspeculationHappened := true
    misspeculatedIteration := iter
    misspecBy := some w :: s.misspecBy }

def grant (s : Team cfg) (w : Fin cfg.numWorkers) (isFinalCheckpoint : Bool) (o : ℕ) : Team cfg :=
  let p := s.members w
  let iter := effectiveIter p isFinalCheckpoint
  { s.setMember w { p with pc := .lockChkpt isFinalCheckpoint o, asked := iter + 1 } with
    issued := (iter, o) :: s.issued }

def requested (s : Team cfg) (w : Fin cfg.numWorkers) (isFinalCheckpoint : Bool) : Request → Team cfg
  | .old o => s.grant w isFinalCheckpoint o
  | .new o m =>
      { (s.setManager m).grant w isFinalCheckpoint o with
        merged := Function.update s.merged o ∅ }
  | .wait => s.setPc w (.wait isFinalCheckpoint)
  | .abort => s.setPc w .aborted

/-- The merge of worker `w` into the object `o`, whose lock it has, and the release of the lock;
`copied` bytes of output go into the object. -/
def performCheckpoint (s : Team cfg) (w : Fin cfg.numWorkers) (isFinalCheckpoint : Bool) (o : ℕ)
    (p : Speculative) (behind : List IOEvt) (copied : ℕ) : Team cfg :=
  let m := s.checkpoints
  let m' := m.setChkpt o (cfg.performCheckpointLocked w (s.members w).currentIter behind p (m.chkpt o))
  let m' := { m' with reduxUsed := Function.update m.reduxUsed o (unsigned (m.reduxUsed o + copied)) }
  { (s.setManager (m'.setLock o false)).setPc w
      (.commit .readFirst (.merged isFinalCheckpoint o)) with
    merged := Function.update s.merged o (insert w (s.merged o)) }

def returned : Return → WorkerPc
  | .merged isFinalCheckpoint _ => if isFinalCheckpoint then .teardown else .iterate
  | .waiting isFinalCheckpoint => .wait isFinalCheckpoint

/-- The record of a step of a commit: a checkpoint that leaves the used list. -/
def noteRetired (s : Team cfg) : CommitPc → Team cfg
  | .retire alpha _ =>
      { s with combined := s.combined ++ [(s.checkpoints.chkpt alpha).iteration] }
  | _ => s

def workerCommits (s : Team cfg) (w : Fin cfg.numWorkers) (pc : CommitPc) (ret : Return) :
    CommitOutcome → Team cfg
  | .next m pc' => ((s.noteRetired pc).setManager m).setPc w (.commit pc' ret)
  | .returns m => (s.setManager m).setPc w (returned ret)
  | .misspecAt m iter => (s.setManager m).misspecAt w iter
  | .abort => s.setPc w .aborted

/-- The outcome of a step of a commit by the main process; `__specpriv_misspec_at` has nowhere to
return to. -/
def mainCommits (s : Team cfg) (pc : CommitPc) : CommitOutcome → Team cfg
  | .next m pc' => { (s.noteRetired pc).setManager m with main := .commit pc' }
  | .returns m => { s.setManager m with main := .adopt }
  | .misspecAt m iter =>
      { s.setManager m with
        main := .lost
        misspeculationHappened := true
        misspeculatedIteration := iter
        misspecBy := none :: s.misspecBy }
  | .abort => { s with main := .aborted }

def frontIsFinal (s : Team cfg) : Bool :=
  match s.checkpoints.used.first with
  | none => false
  | some o => decide ((s.checkpoints.chkpt o).iteration = lastIteration)

/-- The first object of the used list is freed by the main process. -/
def freeFirst (s : Team cfg) (o : ℕ) : Team cfg :=
  s.setManager ((s.checkpoints.setType o .clFree).retire o)

def restart (s : Team cfg) (first : ℕ) : Team cfg :=
  { s with
    misspeculationHappened := false
    main := .trigger 0
    members := fun w => { s.members w with asked := 0 }
    firstIter := first
    issued := []
    combined := [] }

def triggerWorker (s : Team cfg) (w : Fin cfg.numWorkers) : Team cfg :=
  { s.setMember w { s.members w with message := some s.firstIter } with
    workerDoneFlags := Function.update s.workerDoneFlags w false
    main := .trigger (w + 1) }

def mainStep (s : Team cfg) : TeamAction cfg → Option (Team cfg)
  | .beginInvocation => if s.main = .idle then some (s.restart 0) else none
  | .trigger =>
      match s.main with
      | .trigger wid =>
          if h : wid < cfg.numWorkers then some (s.triggerWorker ⟨wid, h⟩)
          else some { s with main := .spin }
      | _ => none
  | .almostDone =>
      if s.main = .spin ∧ (s.misspeculationHappened = true ∨ s.frontIsFinal = true) then
        some { s with main := .allDone }
      else none
  | .allDone =>
      if s.main = .allDone ∧ ∀ w, s.workerDoneFlags w = true then
        some { s with main := .commit .readFirst }
      else none
  | .mainCommit =>
      match s.main with
      | .commit pc => (cfg.commitStep s.checkpoints pc).map (s.mainCommits pc)
      | _ => none
  | .adopt =>
      if s.main = .adopt then
        match s.checkpoints.used.first with
        | some o =>
            if (s.checkpoints.chkpt o).type = .clComplete then some (s.freeFirst o)
            else some { s with main := .squash }
        | none => some { s with main := .squash }
      else none
  | .squash =>
      if s.main = .squash then
        match s.checkpoints.used.first with
        | some o => some (s.freeFirst o)
        | none => some { s with main := if s.misspeculationHappened then .recover else .idle }
      else none
  | .recovered exits =>
      if s.main = .recover then
        some (if exits then { s with main := .idle, misspeculationHappened := false }
          else s.restart (s.misspeculatedIteration + 1))
      else none
  | _ => none

/-- A step of a worker. In the loop that waits for a free object the worker reads the lists without
the lock, so it may go back to the lock at any time. -/
def workerStep (z : Sizes) (s : Team cfg) : TeamAction cfg → Option (Team cfg)
  | .start w =>
      let p := s.members w
      match p.pc, p.message with
      | .pipe, some first => some (s.setMember w
          { p with pc := .iterate, currentIter := first, mounted := true, message := none })
      | _, _ => none
  | .checkpoint w iter isFinalCheckpoint =>
      let p := { s.members w with currentIter := iter }
      if p.pc = .iterate ∧ s.Reaches w iter ∧ p.asked ≤ effectiveIter p isFinalCheckpoint then
        if s.misspeculatedBefore iter then some ((s.setMember w p).misspecAt w iter)
        else some ((s.setMember w p).setPc w (.request isFinalCheckpoint))
      else none
  | .misspec w iter =>
      if (s.members w).pc = .iterate ∧ s.Reaches w iter then
        some ((s.setMember w { s.members w with currentIter := iter }).misspecAt w iter)
      else none
  | .leave w iter =>
      if (s.members w).pc = .iterate ∧ s.Reaches w iter ∧ s.misspeculationHappened = true ∧
          s.misspeculatedIteration < iter then
        some (s.setMember w { s.members w with currentIter := iter, pc := .pipe })
      else none
  | .get w =>
      match (s.members w).pc with
      | .request isFinalCheckpoint => some (s.requested w isFinalCheckpoint
          (s.checkpoints.getCheckpointForIter z (effectiveIter (s.members w) isFinalCheckpoint)))
      | _ => none
  | .giveUp w =>
      match (s.members w).pc with
      | .wait _ =>
          if s.misspeculatedBefore (s.members w).currentIter then
            some (s.misspecAt w (s.members w).currentIter)
          else none
      | _ => none
  | .poll w =>
      match (s.members w).pc with
      | .wait isFinalCheckpoint => some (s.setPc w (.commit .readFirst (.waiting isFinalCheckpoint)))
      | _ => none
  | .wake w =>
      match (s.members w).pc with
      | .wait isFinalCheckpoint => some (s.setPc w (.retry isFinalCheckpoint))
      | _ => none
  | .retry w =>
      match (s.members w).pc with
      | .retry isFinalCheckpoint => some (s.requested w isFinalCheckpoint
          (s.checkpoints.createCheckpoint z (effectiveIter (s.members w) isFinalCheckpoint)))
      | _ => none
  | .lock w =>
      match (s.members w).pc with
      | .lockChkpt isFinalCheckpoint o =>
          if s.checkpoints.lock o then none
          else some ((s.setManager (s.checkpoints.setLock o true)).setPc w
            (.merge isFinalCheckpoint o))
      | _ => none
  | .merge w p behind copied =>
      match (s.members w).pc with
      | .merge isFinalCheckpoint o =>
          some (s.performCheckpoint w isFinalCheckpoint o p behind copied)
      | _ => none
  | .commit w =>
      match (s.members w).pc with
      | .commit pc ret =>
          (cfg.commitStep s.checkpoints pc).map (s.workerCommits w pc ret)
      | _ => none
  | .teardown w =>
      if (s.members w).pc = .teardown then
        some (s.setMember w { s.members w with pc := .setFlag, mounted := false })
      else none
  | .setFlag w =>
      if (s.members w).pc = .setFlag then
        some { s.setPc w .pipe with
          workerDoneFlags := Function.update s.workerDoneFlags w true }
      else none
  | _ => none

def step (z : Sizes) (s : Team cfg) (a : TeamAction cfg) : Option (Team cfg) :=
  match a with
  | .beginInvocation | .trigger | .almostDone | .allDone | .mainCommit | .adopt | .squash
  | .recovered _ => s.mainStep a
  | _ => workerStep z s a

/-- After `__spawn_workers_begin`: the workers wait at their pipes. -/
def initial (cfg : Config) (chkpt : ℕ → Checkpoint) (reduxUsed : ℕ → ℕ) : Team cfg where
  misspeculationHappened := false
  misspeculatedIteration := 0
  checkpoints := Manager.initCheckpointManager chkpt reduxUsed
  workerDoneFlags := fun _ => false
  main := .idle
  members := fun _ => ⟨.pipe, 0, false, none, 0⟩
  firstIter := 0
  merged := fun _ => ∅
  issued := []
  combined := []
  misspecBy := []

end Team
end Cpf.Executive
