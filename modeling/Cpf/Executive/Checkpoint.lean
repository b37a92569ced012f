import Cpf.Executive.CommittedFold
import Cpf.Executive.Redux
import Cpf.Executive.DeferredIO

/-!
# Checkpoints

The checkpoint objects of `checkpoint.c`: a worker adds its values to the partial checkpoint of its
group, two complete checkpoints are combined, and at the end of the parallel region the main
process adopts the complete checkpoints in order and squashes the others. The lists hold the
checkpoints in use, oldest first; the free list is left out, since a reused object is initialised
by the first worker that merges into it.
-/

namespace Cpf.Executive

inductive CheckpointLife
  | clFree
  | clPartial
  | clComplete
  | clBroken
  deriving DecidableEq

structure Checkpoint where
  type : CheckpointLife
  iteration : ℕ
  numWorkers : ℕ
  priv : Image
  killpriv : Heap
  share : Image
  redux : ReduxHeap
  ioEvents : IOEvtSet

/-- The state of the main process that checkpoints are adopted into. -/
structure Main where
  priv : Heap
  killpriv : Heap
  sharepriv : Heap
  redux : ReduxHeap
  iteration : ℤ

/-- The values of a worker that it adds to a checkpoint. -/
structure Speculative where
  worker : Worker
  killpriv : Heap
  share : Image
  redux : ReduxHeap
  ioEvents : List IOEvt

/-- The number of workers, the sizes of the heaps and the reductions of an invocation. -/
structure Config where
  numWorkers : ℕ
  workers_pos : 1 ≤ numWorkers
  workers_le : numWorkers ≤ maxWorkers
  sizeofPrivate : HeapLen
  sizeofKillprivate : HeapLen
  sizeofShareprivate : HeapLen
  reductions : Reductions

/-- What `__specpriv_commit_zero_or_more_checkpoints` has done. -/
inductive Commit
  | nothing
  | combined (used : List Checkpoint) (output : List IOEvt)
  | conflict (used : List Checkpoint) (iteration : ℕ)

/-- The main process after `__specpriv_distill_checkpoints_into_liveout`. -/
structure Liveout where
  main : Main
  output : List IOEvt
  adopted : List Checkpoint
  squashed : List Checkpoint

namespace Config

variable (cfg : Config)

def granularity : ℕ := checkpointGranularity cfg.numWorkers

theorem granularity_pos : 0 < cfg.granularity :=
  checkpointGranularity_pos cfg.workers_pos cfg.workers_le

theorem granularity_le : cfg.granularity ≤ 253 := checkpointGranularity_le cfg.numWorkers

def initializePartialCheckpoint (c : Checkpoint) : Checkpoint :=
  { c with
    priv := c.priv.initializePartial cfg.sizeofPrivate.val
    share := c.share.initializeSharePartial cfg.sizeofShareprivate.val
    redux := cfg.reductions.initializeCheckpointRedux false c.redux }

def mergePrivate (p : Speculative) (c : Checkpoint) : Except Image Image :=
  Image.distillWorkerPrivateIntoPartial cfg.sizeofPrivate.val p.worker.image
    (if c.numWorkers = 0 then cfg.initializePartialCheckpoint c else c).priv

/-- The checkpoint after `__specpriv_worker_perform_checkpoint_locked` by worker `wid`, which does
not look at the result of the private merge. -/
def performCheckpointLocked (wid currentIter : ℕ) (behind : List IOEvt) (p : Speculative)
    (c : Checkpoint) : Checkpoint :=
  let c' := if c.numWorkers = 0 then cfg.initializePartialCheckpoint c else c
  { c' with
    priv := match cfg.mergePrivate p c with
      | .ok img => img
      | .error img => img
    share := Image.distillWorkerShareprivateIntoPartial cfg.sizeofShareprivate.val p.share c'.share
    killpriv := if c.iteration = lastIteration then
        distillWorkerKillprivateIntoPartial (wid = currentIter % cfg.numWorkers)
          cfg.sizeofKillprivate.val p.killpriv c'.killpriv
      else c'.killpriv
    redux := (cfg.reductions.distill p.redux c'.redux).2
    ioEvents := c'.ioEvents.copyIoToRedux wid p.ioEvents behind
    numWorkers := c.numWorkers + 1
    type := if c.numWorkers + 1 = cfg.numWorkers then .clComplete else c.type }

/-- The worker after its merge: its touched ranges are reset, the private one only if the merge
reported no conflict. -/
def afterCheckpoint (p : Speculative) (c : Checkpoint) : Speculative :=
  let c' := if c.numWorkers = 0 then cfg.initializePartialCheckpoint c else c
  { p with
    worker := match cfg.mergePrivate p c with
      | .ok _ => { p.worker with range := ShadowRange.reset }
      | .error _ => p.worker
    share := { p.share with range := ShadowRange.reset }
    redux := (cfg.reductions.distill p.redux c'.redux).1
    ioEvents := [] }

def combinePrivate (older newer : Checkpoint) : Bool × Checkpoint :=
  match Image.distillCommittedPrivateIntoPartial cfg.sizeofPrivate.val older.priv newer.priv with
  | .ok img => (false, { newer with priv := img })
  | .error img => (true, { newer with priv := img, type := .clBroken })

/-- `__specpriv_combine_shareprivate`; `__specpriv_combine_killprivate` copies nothing. -/
def combineShareprivate (older newer : Checkpoint) : Checkpoint :=
  { newer with
    share := older.share.distillCommittedShareprivateIntoPartial cfg.sizeofShareprivate.val
      newer.share }

/-- `__specpriv_combine_redux`: the newer checkpoint and the output of the older one. -/
def combineRedux (older newer : Checkpoint) : Checkpoint × List IOEvt :=
  let commit := cfg.reductions.initializeCheckpointRedux true older.redux
  ({ newer with redux := (cfg.reductions.distill commit newer.redux).2 },
    older.ioEvents.commitIo cfg.numWorkers)

/-- `__specpriv_combine_checkpoints`: the newer checkpoint, with the output of the older one if
they do not conflict. -/
def combineCheckpoints (older newer : Checkpoint) : Except Checkpoint (Checkpoint × List IOEvt) :=
  match cfg.combinePrivate older newer with
  | (true, newer) => .error newer
  | (false, newer) => .ok (cfg.combineRedux older (cfg.combineShareprivate older newer))

/-- `__specpriv_commit_zero_or_more_checkpoints`, up to the call of `__specpriv_misspec_at`. -/
def commitZeroOrMoreCheckpoints : List Checkpoint → Commit
  | alpha :: beta :: rest =>
      if alpha.type = .clComplete ∧ beta.type = .clComplete then
        match cfg.combineCheckpoints { alpha with type := .clFree } beta with
        | .error newer => .conflict ({ alpha with type := .clFree } ::
            { newer with type := .clBroken } :: rest) beta.iteration
        | .ok r => .combined (r.1 :: rest) r.2
      else .nothing
  | _ => .nothing

def adopt (misspeculationHappened : Bool) (m : Main) (c : Checkpoint) : Main where
  priv := c.priv.distillCommittedPrivateIntoMain cfg.sizeofPrivate.val m.priv
  killpriv := if misspeculationHappened then m.killpriv
    else distillCommittedKillprivateIntoMain cfg.sizeofKillprivate.val c.killpriv m.killpriv
  sharepriv := if misspeculationHappened then m.sharepriv
    else c.share.distillCommittedShareprivateIntoMain cfg.sizeofShareprivate.val m.sharepriv
  redux := (cfg.reductions.distill c.redux m.redux).2
  iteration := c.iteration

/-- The two loops of `__specpriv_distill_checkpoints_into_liveout`. -/
def adoptComplete (misspeculationHappened : Bool) (m : Main) : List Checkpoint → Liveout
  | [] => ⟨m, [], [], []⟩
  | c :: cs =>
      if c.type = .clComplete then
        let r := adoptComplete misspeculationHappened (cfg.adopt misspeculationHappened m c) cs
        { r with
          output := c.ioEvents.commitIo cfg.numWorkers ++ r.output
          adopted := c :: r.adopted }
      else ⟨m, [], [], c :: cs⟩

/-- `__specpriv_distill_checkpoints_into_liveout`. A conflict of the two oldest checkpoints ends in
`__specpriv_misspec_at` with the iteration of the newer one, which does not return. -/
def distillCheckpointsIntoLiveout (misspeculationHappened : Bool) (m : Main)
    (used : List Checkpoint) : Except ℕ Liveout :=
  match cfg.commitZeroOrMoreCheckpoints used with
  | .nothing => .ok (cfg.adoptComplete misspeculationHappened m used)
  | .combined used output =>
      let r := cfg.adoptComplete misspeculationHappened m used
      .ok { r with output := output ++ r.output }
  | .conflict _ iteration => .error iteration

end Config
end Cpf.Executive
