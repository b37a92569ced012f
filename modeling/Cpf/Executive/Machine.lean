import Cpf.Basics.Trans
import Cpf.Executive.CheckpointSpec

/-!
# The parallel region as a state machine

The main process and its workers during one invocation: workers run iterations, merge into
checkpoints and commit them, any of them may misspeculate, and the main process joins them,
recovers sequentially and restarts the workers. A worker makes one step at a time, between steps
of the others. A commit is one step; one that finds the two oldest checkpoints taken by another
commit does nothing (`skip`). Every worker counts every iteration (`runOnEveryIter`) and executes
those it owns.
The fields below `output` record what has happened and are not read by the code.
-/

namespace Cpf.Executive

/-- The loop: its trip count, the worker that executes an iteration, and the output of an
iteration. -/
structure Loop (cfg : Config) where
  trip : ℕ
  trip_lt : trip < lastIteration
  owner : ℕ → Fin cfg.numWorkers
  evts : ℕ → List IOEvt
  evts_iter : ∀ i, ∀ e ∈ evts i, e.iter = i

/-- Where a worker is: in its iterations, at a checkpoint boundary, behind a merge (the final one or
not), stopped with its done flag set, or back at the pipe without it. -/
inductive Pc
  | iterate
  | checkpoint
  | commit (isFinalCheckpoint : Bool)
  | done
  | gone
  deriving DecidableEq

/-- A worker; `merges` and `pending` record its merges since the start and its iterations since the
last one. -/
structure Proc where
  spec : Speculative
  currentIter : ℕ
  pc : Pc
  merges : ℕ
  pending : List ℕ

/-- A merge of a worker's private heap: the iteration of its checkpoint, the heap of the worker and that of the
checkpoint before it. -/
structure Merge where
  iteration : ℕ
  worker : Image
  chkpt : Image

inductive Phase
  | parallel
  | recovering
  | ended
  | lost
  deriving DecidableEq

/-- The main process, the workers and the shared control block. The record: the iterations whose
effects are in the heaps of the main process and in each checkpoint, and, since the workers were
started, the merges, the checkpoints with a reported conflict, those adopted and those whose output
was written. -/
structure State (cfg : Config) where
  phase : Phase
  main : Main
  misspeculationHappened : Bool
  misspeculatedIteration : ℕ
  firstIteration : ℕ
  procs : Fin cfg.numWorkers → Proc
  used : List Checkpoint
  output : List IOEvt
  log : List ℕ
  effects : ℕ → List ℕ
  merged : List Merge
  conflicts : List ℕ
  adopted : List ℕ
  emitted : List ℕ

inductive Action (cfg : Config)
  | access (w : Fin cfg.numWorkers) (o : Op)
  | update (w : Fin cfg.numWorkers) (killpriv : Heap) (share : Image) (redux : ReduxHeap)
  | endIter (w : Fin cfg.numWorkers)
  | checkpoint (w : Fin cfg.numWorkers) (object : Checkpoint) (behind : List IOEvt)
  | finish (w : Fin cfg.numWorkers) (object : Checkpoint) (behind : List IOEvt)
  | commit (w : Fin cfg.numWorkers)
  | skip (w : Fin cfg.numWorkers)
  | misspec (w : Fin cfg.numWorkers)
  | join
  | recover (heaps : Main) (redux : ReduxHeap)

/-- `__specpriv_worker_starts`: the heaps are those of the main process, the shadow is empty. -/
def Config.workerStarts (cfg : Config) (m : Main) (redux : ReduxHeap) (first : ℕ) (p : Proc) :
    Proc where
  spec :=
    { worker := Worker.setFirstIter first
        { p.spec.worker with
          priv := m.priv
          shadow := fun _ => liveIn
          checkpointGranularity := cfg.granularity }
      killpriv := m.killpriv
      share := ⟨m.sharepriv, m.sharepriv, p.spec.share.range⟩
      redux := redux
      ioEvents := [] }
  currentIter := first
  pc := .iterate
  merges := 0
  pending := []

namespace State

variable {cfg : Config}

def setProc (s : State cfg) (w : Fin cfg.numWorkers) (p : Proc) : State cfg :=
  { s with procs := Function.update s.procs w p }

def misspecAt (s : State cfg) (w : Fin cfg.numWorkers) (iter : ℕ) : State cfg :=
  { s.setProc w { s.procs w with pc := .done } with
    misspeculationHappened := true
    misspeculatedIteration := iter }

/-- The test before a merge: a misspeculation of this iteration or an earlier one. -/
def misspeculatedBefore (s : State cfg) (iter : ℕ) : Bool :=
  s.misspeculationHappened && decide (s.misspeculatedIteration ≤ iter)

def freshCheckpoint (object : Checkpoint) (iter : ℕ) : Checkpoint :=
  { object with type := .clPartial, iteration := iter, numWorkers := 0 }

/-- `__specpriv_get_checkpoint_for_iter` and the update of the checkpoint it returns. -/
def mergeInto (iter : ℕ) (f : Checkpoint → Checkpoint) (fresh : Checkpoint) :
    List Checkpoint → List Checkpoint
  | [] => [f fresh]
  | c :: cs => if c.iteration = iter then f c :: cs else c :: mergeInto iter f fresh cs

def target (s : State cfg) (object : Checkpoint) (iter : ℕ) : Checkpoint :=
  (s.used.find? (fun c => c.iteration = iter)).getD (freshCheckpoint object iter)

def mergeConflicts (s : State cfg) (w : Fin cfg.numWorkers) (object : Checkpoint) (iter : ℕ) :
    Bool :=
  !(cfg.mergePrivate (s.procs w).spec (s.target object iter)).isOk

def mergeOf (s : State cfg) (w : Fin cfg.numWorkers) (object : Checkpoint) (iter : ℕ) : Merge :=
  ⟨iter, (s.procs w).spec.worker.image, cfg.mergeTarget (s.target object iter)⟩

def performCheckpoint (s : State cfg) (w : Fin cfg.numWorkers) (object : Checkpoint)
    (behind : List IOEvt) (iter : ℕ) (isFinalCheckpoint : Bool) : State cfg :=
  let p := s.procs w
  { s.setProc w { p with
      spec := cfg.afterCheckpoint p.spec (s.target object iter)
      pc := .commit isFinalCheckpoint
      merges := p.merges + 1
      pending := [] } with
    used := mergeInto iter (cfg.performCheckpointLocked w p.currentIter behind p.spec)
      (freshCheckpoint object iter) s.used
    effects := Function.update s.effects iter (s.effects iter ++ p.pending)
    merged := s.mergeOf w object iter :: s.merged
    conflicts := if s.mergeConflicts w object iter then iter :: s.conflicts else s.conflicts }

def combined (s : State cfg) (used : List Checkpoint) (out : List IOEvt) : State cfg :=
  match s.used with
  | alpha :: beta :: _ =>
      { s with
        used := used
        output := s.output ++ out
        effects := Function.update s.effects beta.iteration
          (s.effects alpha.iteration ++ s.effects beta.iteration)
        emitted := s.emitted ++ [alpha.iteration] }
  | _ => s

def commit (s : State cfg) (w : Fin cfg.numWorkers) (pc : Pc) : State cfg :=
  match cfg.commitZeroOrMoreCheckpoints s.used with
  | .nothing => s.setProc w { s.procs w with pc := pc }
  | .combined used out => (s.combined used out).setProc w { s.procs w with pc := pc }
  | .conflict used iteration => misspecAt { s with used := used } w iteration

def adopt (s : State cfg) : State cfg :=
  let r := cfg.adoptComplete s.misspeculationHappened s.main s.used
  { s with
    phase := if s.misspeculationHappened then .recovering else .ended
    main := r.main
    used := []
    output := s.output ++ r.output
    log := s.log ++ r.adopted.flatMap (fun c => s.effects c.iteration)
    adopted := r.adopted.map Checkpoint.iteration
    emitted := s.emitted ++ r.adopted.map Checkpoint.iteration }

/-- `__specpriv_distill_checkpoints_into_liveout` in `__specpriv_join_children`. A conflict that the
main process finds itself ends in `__specpriv_misspec_at`, which has nowhere to return to. -/
def join (s : State cfg) : State cfg :=
  match cfg.commitZeroOrMoreCheckpoints s.used with
  | .nothing => s.adopt
  | .combined used out => (s.combined used out).adopt
  | .conflict _ iteration =>
      { s with
        phase := .lost
        misspeculationHappened := true
        misspeculatedIteration := iteration }

def frontIsFinal (s : State cfg) : Bool :=
  match s.used with
  | [] => false
  | c :: _ => decide (c.iteration = lastIteration)

end State

namespace Loop

variable {cfg : Config} (loop : Loop cfg)

/-- The part of `__specpriv_end_iter` behind its check for a misspeculation. -/
def advance (w : Fin cfg.numWorkers) (p : Proc) : Proc :=
  let i := p.currentIter + 1
  let own := loop.owner p.currentIter = w
  let worker := p.spec.worker.advanceIter i 1
  { p with
    spec := { p.spec with
      worker := worker
      ioEvents := p.spec.ioEvents ++ if own then loop.evts p.currentIter else [] }
    currentIter := i
    pc := if worker.code8.toNat = numReservedShadowValues ∧ 0 < i then .checkpoint else .iterate
    pending := p.pending ++ if own then [p.currentIter] else [] }

/-- The first iteration of the recovery, one behind the last committed one. -/
def lowIter (s : State cfg) : ℕ := (s.main.iteration + 1).toNat

def recovered (s : State cfg) : List ℕ :=
  forRange (lowIter s) (min (s.misspeculatedIteration + 1) loop.trip) 1

/-- The recovery function leaves the loop, and does not only reach the high iteration. -/
def recoveryExits (s : State cfg) : Prop :=
  lowIter s ≤ s.misspeculatedIteration ∧ loop.trip ≤ s.misspeculatedIteration

instance (s : State cfg) : Decidable (loop.recoveryExits s) := inferInstanceAs (Decidable (_ ∧ _))

/-- `__specpriv_recovery_finished` after the recovery function has left `heaps`, and the restart of
the workers unless the loop is over. -/
def recover (s : State cfg) (heaps : Main) (redux : ReduxHeap) : State cfg :=
  let main := { heaps with iteration := s.misspeculatedIteration }
  let first := s.misspeculatedIteration + 1
  { s with
    phase := if loop.recoveryExits s then .ended else .parallel
    main := main
    misspeculationHappened := false
    firstIteration := first
    procs := fun w => cfg.workerStarts main redux first (s.procs w)
    output := s.output ++ (loop.recovered s).flatMap loop.evts
    log := s.log ++ loop.recovered s
    effects := fun _ => []
    merged := []
    conflicts := []
    adopted := []
    emitted := [] }

def step (s : State cfg) : Action cfg → Option (State cfg)
  | .access w o =>
      let p := s.procs w
      if s.phase = .parallel ∧ p.pc = .iterate ∧ p.currentIter < loop.trip ∧
          loop.owner p.currentIter = w then
        match o.exec p.spec.worker with
        | .ok v => some (s.setProc w { p with spec := { p.spec with worker := v } })
        | .error _ => some (s.misspecAt w p.currentIter)
      else none
  | .update w killpriv share redux =>
      let p := s.procs w
      if s.phase = .parallel ∧ p.pc = .iterate then
        some (s.setProc w
          { p with spec := { p.spec with killpriv := killpriv, share := share, redux := redux } })
      else none
  | .endIter w =>
      let p := s.procs w
      if s.phase = .parallel ∧ p.pc = .iterate ∧ p.currentIter < loop.trip then
        if s.misspeculationHappened = true ∧ s.misspeculatedIteration < p.currentIter then
          some (s.setProc w { p with pc := .gone })
        else some (s.setProc w (loop.advance w p))
      else none
  | .checkpoint w object behind =>
      let p := s.procs w
      if s.phase = .parallel ∧ p.pc = .checkpoint then
        if s.misspeculatedBefore p.currentIter then some (s.misspecAt w p.currentIter)
        else some (s.performCheckpoint w object behind p.currentIter false)
      else none
  | .finish w object behind =>
      let p := s.procs w
      if s.phase = .parallel ∧ p.pc = .iterate ∧ loop.trip ≤ p.currentIter then
        if s.misspeculatedBefore p.currentIter then some (s.misspecAt w p.currentIter)
        else some (s.performCheckpoint w object behind lastIteration true)
      else none
  | .commit w =>
      match s.phase, (s.procs w).pc with
      | .parallel, .commit isFinalCheckpoint =>
          some (s.commit w (if isFinalCheckpoint then .done else .iterate))
      | _, _ => none
  | .skip w =>
      match s.phase, (s.procs w).pc with
      | .parallel, .commit isFinalCheckpoint =>
          some (s.setProc w
            { s.procs w with pc := if isFinalCheckpoint then .done else .iterate })
      | _, _ => none
  | .misspec w =>
      if s.phase = .parallel ∧ (s.procs w).pc = .iterate then
        some (s.misspecAt w (s.procs w).currentIter)
      else none
  | .join =>
      if s.phase = .parallel ∧ (∀ w, (s.procs w).pc = .done) ∧
          (s.misspeculationHappened = true ∨ s.frontIsFinal = true) then some s.join
      else none
  | .recover heaps redux =>
      if s.phase = .recovering then some (loop.recover s heaps redux) else none

/-- The state after `__specpriv_begin_invocation` and the start of the workers. -/
def initial (m : Main) (redux : ReduxHeap) (procs : Fin cfg.numWorkers → Proc) : State cfg where
  phase := .parallel
  main := { m with iteration := -1 }
  misspeculationHappened := false
  misspeculatedIteration := 0
  firstIteration := 0
  procs := fun w => cfg.workerStarts m redux 0 (procs w)
  used := []
  output := []
  log := []
  effects := fun _ => []
  merged := []
  conflicts := []
  adopted := []
  emitted := []

def idleProc : Proc where
  spec :=
    { worker := ⟨fun _ => 0, fun _ => liveIn, ShadowRange.reset, 0, 0, 0, 0, 0⟩
      killpriv := fun _ => 0
      share := ⟨fun _ => 0, fun _ => 0, ShadowRange.reset⟩
      redux := Config.zeroMain.redux
      ioEvents := [] }
  currentIter := 0
  pc := .gone
  merges := 0
  pending := []

def zeroStart : State cfg := initial Config.zeroMain Config.zeroMain.redux (fun _ => idleProc)

def blankChkpt : Checkpoint where
  type := .clFree
  iteration := 0
  numWorkers := 0
  priv := ⟨fun _ => 0, fun _ => 0, ShadowRange.reset⟩
  killpriv := fun _ => 0
  share := ⟨fun _ => 0, fun _ => 0, ShadowRange.reset⟩
  redux := Config.zeroMain.redux
  ioEvents := IOEvtSet.empty

end Loop
end Cpf.Executive
