import Cpf.Smtx.Token

/-!
# The processes of a versioned memory

Workers announce their accesses, the try-commit process replays the accesses of an iteration and checks its
reads, and the commit process applies the writes of the iterations that passed. Each access to a shared index
of a queue is a step, so calls of different processes interleave. Recovery from misspeculation is left out: a
process that has seen it stops.
-/

namespace Cpf.Smtx

/-- The workers `0 .. workers - 1`, whose `prev` and `next` are given; the try-commit process is the next one
and the commit process the last one. -/
structure Config where
  workers : ℕ
  workerPrev : ℕ → ℤ
  workerNext : ℕ → ℕ
  next_le : ∀ w, workerNext w ≤ workers

namespace Config

variable (cfg : Config)

def processes : ℕ := cfg.workers + 2

def tryCommitId : ℕ := cfg.workers

def commitId : ℕ := cfg.workers + 1

def prev (p : ℕ) : ℤ := if p < cfg.workers then cfg.workerPrev p else (cfg.workers : ℤ) - 1

def next (p : ℕ) : ℕ := if p < cfg.workers then cfg.workerNext p else p + 1

end Config

/-- The rest of a call that works on queues; `dest` and `source` are the other process. -/
inductive QueueOp
  | produce2 (dest : ℕ) (a b : Word)
  | waitConsumer (dest : ℕ)
  | spinConsumer (dest : ℕ)
  | flush (dest : ℕ)
  | reverseFlush (source : ℕ)
  | consume (source : ℕ)
  | waitAllocated (source : ℕ)
  | spinAllocated (source : ℕ)
  | refill (source : ℕ)
  deriving DecidableEq

def QueueOp.queue (p : ℕ) : QueueOp → ℕ × ℕ
  | .produce2 dest _ _ => (p, dest)
  | .waitConsumer dest => (p, dest)
  | .spinConsumer dest => (p, dest)
  | .flush dest => (p, dest)
  | .reverseFlush source => (source, p)
  | .consume source => (source, p)
  | .waitAllocated source => (source, p)
  | .spinAllocated source => (source, p)
  | .refill source => (source, p)

/-- One operation: the queue behind it, what is left to do of it, and the word it consumes. `flushAll` is the
callback. -/
def SwQueue.exec (flushAll : List QueueOp) (q : SwQueue) :
    QueueOp → Option (SwQueue × List QueueOp × List Word)
  | .produce2 dest a b =>
      some (q.write2 a b, if (q.write2 a b).pInx % chunkSize = 0 then [.waitConsumer dest] else [], [])
  | .waitConsumer dest =>
      if q.crowded then some (q, flushAll ++ [.spinConsumer dest], []) else some (q.flush, [], [])
  | .spinConsumer _ => if q.crowded then none else some (q, [], [])
  | .flush _ => some (q.flush, [], [])
  | .reverseFlush _ => some (q.reverseFlush, [], [])
  | .consume source =>
      if q.cInx = q.cMargin then some (q, [.waitAllocated source], [])
      else some (q.advance, [], [q.next])
  | .waitAllocated source =>
      if q.pGlbInx = q.cInx then some (q, flushAll ++ [.spinAllocated source], [])
      else some (q.reverseFlush, [.refill source], [])
  | .spinAllocated source => if q.pGlbInx = q.cInx then none else some (q, [.refill source], [])
  | .refill _ => some (q.refill.advance, [], [q.refill.next])

inductive Call
  | begin
  | tryCommit
  deriving DecidableEq

/-- Where a process goes on when its work on queues is done. -/
inductive Control
  | idle
  | enter (call : Call) (source : ℕ)
  | shouldConsume (call : Call) (source : ℕ)
  | spinConsume (call : Call) (source : ℕ)
  | apply (call : Call) (source : ℕ)
  | check
  | running
  | ended
  | returning (mode : VerMode)
  | recovering
  deriving DecidableEq

/-- A process with its own memory. `iter` counts the iterations it has ended (the commit process: committed),
and `pos` the accesses it has announced since. -/
structure Process where
  pending : List QueueOp
  control : Control
  words : List Word
  mem : Heap
  forceFlush : Bool
  iter : ℕ
  pos : ℕ

/-- The channel and its processes; `returned` lists what the calls of `ver_tryCommit` returned. -/
structure State where
  queues : ℕ → ℕ → SwQueue
  procs : ℕ → Process
  mode : VerMode
  returned : List VerMode

namespace State

def setProc (s : State) (p : ℕ) (process : Process) : State :=
  { s with procs := Function.update s.procs p process }

def setQueue (s : State) (k : ℕ × ℕ) (q : SwQueue) : State :=
  { s with queues := Function.update s.queues k.1 (Function.update (s.queues k.1) k.2 q) }

end State

section

variable (cfg : Config) (p : ℕ)

def flushOps : List QueueOp := (List.range' (cfg.next p) (cfg.processes - cfg.next p)).map .flush

def reverseFlushOps : List QueueOp :=
  (List.range (cfg.prev p + 1).toNat).map .reverseFlush ++
    if p = cfg.commitId then [.reverseFlush cfg.tryCommitId] else []

def flushAllOps : List QueueOp := flushOps cfg p ++ reverseFlushOps cfg p

def broadcast (token val : Word) : List QueueOp :=
  (List.range' (cfg.next p) (cfg.processes - cfg.next p)).map fun dest => .produce2 dest token val

def accessOps (a : Access) : List QueueOp :=
  match a.kind with
  | .read => [.produce2 cfg.tryCommitId a.token a.val]
  | .writeAll => broadcast cfg p a.token a.val
  | .writeSilent => [.produce2 cfg.tryCommitId a.token a.val, .produce2 cfg.commitId a.token a.val]

def endOps : List QueueOp := broadcast cfg p 0 (VerMode.box .ok)

end

section

variable (cfg : Config) (script : ℕ → ℕ → List Access) (s : State) (p : ℕ)

def verEnd (process : Process) : Process :=
  { process with pending := endOps cfg p, control := .ended, iter := process.iter + 1, pos := 0 }

def returnFrom (call : Call) (mode : VerMode) : State :=
  let process := s.procs p
  match call with
  | .begin =>
      if p = cfg.commitId then s.setProc p { process with control := .idle, iter := process.iter + 1 }
      else if mode = .ok then s.setProc p { process with control := .running }
      else s.setProc p { process with control := .recovering }
  | .tryCommit =>
      State.setProc { s with returned := s.returned ++ [mode] } p
        (if mode = VerMode.ok then verEnd cfg p process else { process with control := .recovering })

def nextCall (process : Process) : Process :=
  if p = cfg.tryCommitId then { process with control := .enter .tryCommit 0 }
  else if p = cfg.commitId then
    { process with
      pending := [.consume cfg.tryCommitId, .consume cfg.tryCommitId]
      control := .check }
  else { process with control := .enter .begin 0 }

/-- The loop body of `ver_begin` and `ver_tryCommit` behind `ver_shouldConsume`. -/
def consumeMessage (call : Call) (source : ℕ) (process : Process) : Process :=
  { process with pending := [.consume source, .consume source], control := .apply call source }

def applyMessage (call : Call) (source : ℕ) (token value : Word) : Option State :=
  let process := s.procs p
  let r := applyUpdates (call = .tryCommit) process.mem token value
  let process := { process with mem := r.1, words := [] }
  match r.2 with
  | .cont => some (s.setProc p { process with control := .shouldConsume call source })
  | .ok => some (s.setProc p { process with control := .enter call (source + 1) })
  | mode =>
      match call with
      | .begin => some (returnFrom cfg (s.setProc p process) p .begin mode)
      | .tryCommit =>
          if mode = .misspec ∨ mode = .term then
            some (s.setProc p { process with
              pending := broadcast cfg p 0 mode.box
              control := .returning mode })
          else none

def goOn : Option State :=
  let process := s.procs p
  match process.control with
  | .idle => some (s.setProc p (nextCall cfg p process))
  | .enter call source =>
      if (source : ℤ) ≤ cfg.prev p then
        some (s.setProc p { process with control := .shouldConsume call source })
      else some (returnFrom cfg s p call s.mode)
  | .shouldConsume call source =>
      if (s.queues source p).canConsume then some (s.setProc p (consumeMessage call source process))
      else some (s.setProc p
        { process with pending := flushAllOps cfg p, control := .spinConsume call source })
  | .spinConsume call source =>
      if (s.queues source p).canConsume then some (s.setProc p (consumeMessage call source process))
      else if s.mode ≠ .ok then some (returnFrom cfg s p call s.mode)
      else none
  | .apply call source =>
      match process.words with
      | [token, value] => applyMessage cfg s p call source token value
      | _ => none
  | .check =>
      match process.words with
      | [token, value] =>
          if token ≠ 0 then none
          else if VerMode.unbox value = .ok then
            some (s.setProc p { process with control := .enter .begin 0, words := [] })
          else some (State.setProc { s with mode := .recover } p
            { process with control := .recovering, words := [] })
      | _ => none
  | .running =>
      match (script p process.iter)[process.pos]? with
      | some a => some (s.setProc p
          { process with pending := accessOps cfg p a, pos := process.pos + 1 })
      | none => some (s.setProc p (verEnd cfg p process))
  | .ended => some (s.setProc p
      { process with
        pending := if process.forceFlush then flushOps cfg p else []
        forceFlush := false
        control := if s.mode = .ok then .idle else .recovering })
  | .returning mode => some (returnFrom cfg s p .tryCommit mode)
  | .recovering => none

def step : Option State :=
  if p < cfg.processes then
    match (s.procs p).pending with
    | op :: rest =>
        ((s.queues (op.queue p).1 (op.queue p).2).exec (flushAllOps cfg p) op).map
          fun (q, more, ws) => (s.setQueue (op.queue p) q).setProc p
            { s.procs p with pending := more ++ rest, words := (s.procs p).words ++ ws }
    | [] => goOn cfg script s p
  else none

end

/-- A channel before the first iteration: the queues are empty, and the last two processes have the same
memory. -/
structure Starts (cfg : Config) (mem : Heap) (s : State) : Prop where
  queues : ∀ f t, (s.queues f t).Empty
  pending : ∀ p, (s.procs p).pending = []
  control : ∀ p, (s.procs p).control = .idle
  words : ∀ p, (s.procs p).words = []
  iter : ∀ p, (s.procs p).iter = 0
  pos : ∀ p, (s.procs p).pos = 0
  tryCommit : (s.procs cfg.tryCommitId).mem = mem
  commit : (s.procs cfg.commitId).mem = mem
  mode : s.mode = .ok
  returned : s.returned = []

def iteration (cfg : Config) (script : ℕ → ℕ → List Access) (i : ℕ) : List Access :=
  (List.range cfg.workers).flatMap fun w => script w i

def committed (cfg : Config) (script : ℕ → ℕ → List Access) (mem : Heap) (i : ℕ) : Heap :=
  memAfter mem ((List.range i).flatMap (iteration cfg script))

end Cpf.Smtx
