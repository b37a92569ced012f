import Cpf.Smtx.PagePath
import Mathlib.Logic.Function.Basic

/-!
# Versioned allocation

Each worker allocates from a range of addresses of its own and maps it chunk by chunk. The calls are recorded
and sent to the processes behind it, a page of records at a time, which repeat them on their own entry for the
worker. `ver_malloc` maps chunks until the block fits; `update_ver_malloc` maps one. Here `mmap`
succeeds, and no packet or chunk of the pools is taken again before all its readers are done.
-/

namespace Cpf.Smtx.VerMalloc

def verMallocChunkBegin : ℕ := 0x100000000000

def verMallocChunkBound : ℕ := 0x180000000000

def verMallocChunkSize : ℕ := 0x1000

def maxWorkers : ℕ := 32 - 1

def alignment : ℕ := 64

def roundUp (n k : ℕ) : ℕ := (n + (k - 1)) / k * k

def pageOf (p : ℕ) : ℕ := p / pageSize * pageSize

structure VerMallocChunk where
  begin : ℕ
  bound : ℕ
  next : ℕ
  nextChunk : ℕ
  deriving DecidableEq

structure VerMallocInstance where
  ptr : ℕ
  size : ℕ
  heap : ℤ
  deriving DecidableEq

structure VerMallocBuffer where
  elem : ℕ → VerMallocInstance
  index : ℕ

def VerMallocBuffer.cleared : VerMallocBuffer := ⟨fun _ => ⟨0, 0, 0⟩, 0⟩

def instanceSize : ℕ := 16

def instancesPerPage : ℕ := pageSize / instanceSize

/-- The `data` of a packet chunk, read as records. -/
abbrev Page := ℕ → VerMallocInstance

/-- The entries of `ver_malloc_chunks` in a process, and the pages that it has mapped. -/
structure Process where
  chunks : ℕ → VerMallocChunk
  mapped : List ℕ

/-! ### The ranges of the workers -/

def rangeOf (wid : ℕ) : ℕ :=
  let numChunks := (verMallocChunkBound - verMallocChunkBegin) / verMallocChunkSize
  let chunksPerWorker := numChunks / maxWorkers
  let rem := numChunks % maxWorkers
  chunksPerWorker * verMallocChunkSize + if wid < rem then verMallocChunkSize else 0

/-- The value of `n` in round `wid` of the loop in `ver_malloc_init`. -/
def beginOf : ℕ → ℕ
  | 0 => verMallocChunkBegin
  | wid + 1 => beginOf wid + rangeOf wid

def verMallocInit (wid : ℕ) : VerMallocChunk :=
  ⟨beginOf wid, beginOf wid + rangeOf wid, beginOf wid, beginOf wid⟩

def Process.init : Process := ⟨verMallocInit, []⟩

/-! ### Allocation -/

/-- What stops a process, or a step that cannot be taken. -/
inductive Failure
  | outOfRange
  | pointerMismatch
  | replayOutOfRange
  | queueEmpty
  | notBehind
  deriving DecidableEq

namespace Process

variable (wid : ℕ)

/-- The two calls of `mmap`, for the next chunk and its shadow. -/
def mapChunk (p : Process) : Process where
  chunks := Function.update p.chunks wid
    { p.chunks wid with nextChunk := (p.chunks wid).nextChunk + verMallocChunkSize }
  mapped := (p.chunks wid).nextChunk :: getShadowOf (p.chunks wid).nextChunk :: p.mapped

def mapUntil (next : ℕ) : ℕ → Process → Process
  | 0, p => p
  | fuel + 1, p => if (p.chunks wid).nextChunk < next then mapUntil next fuel (p.mapChunk wid) else p

def setNext (next : ℕ) (p : Process) : Process :=
  { p with chunks := Function.update p.chunks wid { p.chunks wid with next := next } }

/-- `ver_malloc` up to the call of `buffer_ver_malloc`. Each round of the loop maps at least one byte, so that
it needs no more rounds than bytes are missing. -/
def verMalloc (size : ℕ) (p : Process) : Except Failure Process :=
  let next := (p.chunks wid).next + roundUp size alignment
  if next < (p.chunks wid).bound then
    .ok ((p.mapUntil wid next (next - (p.chunks wid).nextChunk)).setNext wid next)
  else .error .outOfRange

def updateVerMalloc (size ptr : ℕ) (p : Process) : Except Failure Process :=
  let next := (p.chunks wid).next + roundUp size alignment
  if (p.chunks wid).next ≠ ptr then .error .pointerMismatch
  else if next < (p.chunks wid).bound then
    .ok ((if (p.chunks wid).nextChunk < next then p.mapChunk wid else p).setNext wid next)
  else .error .replayOutOfRange

end Process

/-! ### Records -/

/-- `broadcast_malloc_chunk`: the pages of records that are sent. -/
def broadcastMallocChunk (elem : ℕ → VerMallocInstance) (size : ℕ) : List Page :=
  (List.range (size / pageSize + if size % pageSize = 0 then 0 else 1)).map
    fun c k => elem (c * instancesPerPage + k)

def VerMallocBuffer.flush (buf : VerMallocBuffer) : List Page :=
  if buf.index = pageSize then broadcastMallocChunk buf.elem (pageSize * instanceSize) else []

def VerMallocBuffer.put (buf : VerMallocBuffer) (ptr size : ℕ) (heap : ℤ) : VerMallocBuffer :=
  let buf := if buf.index = pageSize then .cleared else buf
  ⟨Function.update buf.elem buf.index ⟨ptr, size % 2 ^ 32, heap⟩, buf.index + 1⟩

/-- The loop over the records of a page, from record `k` on. A record of a separation heap leaves
`ver_malloc_chunks` as it is. -/
def Process.processAlloc (wid : ℕ) (page : Page) : ℕ → ℕ → Process → Except Failure Process
  | 0, _, p => .ok p
  | n + 1, k, p =>
      if (page k).ptr = 0 then .ok p
      else if (page k).heap = -1 then do
        let p ← p.updateVerMalloc wid (page k).size (page k).ptr
        Process.processAlloc wid page n (k + 1) p
      else Process.processAlloc wid page n (k + 1) p

/-- The records of a page, up to the first one without a pointer. -/
def recordsOf (page : Page) : List VerMallocInstance :=
  ((List.range instancesPerPage).map page).takeWhile fun r => r.ptr ≠ 0

/-! ### Runs -/

inductive ProcessId
  | worker (wid : ℕ)
  | tryCommit (id : ℕ)
  | commit
  deriving DecidableEq

structure Pipeline where
  stage : ℕ → ℕ
  firstWidOfStage : ℕ → ℕ
  replicationFactor : ℕ → ℕ
  replicationFactor_pos : ∀ i, 0 < replicationFactor i

namespace Pipeline

variable (pl : Pipeline)

/-- The iteration that the worker runs after `k` others. -/
def iterationOf (wid k : ℕ) : ℕ :=
  wid - pl.firstWidOfStage (pl.stage wid) + k * pl.replicationFactor (pl.stage wid)

def Behind (source : ℕ) : ProcessId → Prop
  | .worker wid => pl.stage source < pl.stage wid
  | .tryCommit _ => True
  | .commit => True

instance (source : ℕ) : (p : ProcessId) → Decidable (pl.Behind source p)
  | .worker wid => inferInstanceAs (Decidable (pl.stage source < pl.stage wid))
  | .tryCommit _ => inferInstanceAs (Decidable True)
  | .commit => inferInstanceAs (Decidable True)

/-- Worker `wid` follows the allocations that the commit unit reports of worker `source`. -/
def InFront (wid source : ℕ) : Prop := pl.stage wid ≤ pl.stage source ∧ source ≠ wid

instance (wid source : ℕ) : Decidable (pl.InFront wid source) :=
  inferInstanceAs (Decidable (_ ∧ _))

end Pipeline

/-- One packet of `process_reverse_commit_queue`. -/
def Process.processReport (pl : Pipeline) (wid source : ℕ) (r : VerMallocInstance) (p : Process) :
    Except Failure Process :=
  if r.heap = -1 ∧ pl.InFront wid source then p.updateVerMalloc source r.size r.ptr else .ok p

/-- `sent` are the `ALLOC` packets of a worker with the iteration that they belong to, the same ones for every
process behind it, and `taken` counts how many of them a process has taken. `reported` are the records that the
commit unit sends back, and `reportsTaken` counts them for every worker. -/
structure State where
  processes : ProcessId → Process
  buffers : ℕ → VerMallocBuffer
  ended : ℕ → ℕ
  sent : ℕ → List (ℕ × Page)
  taken : ProcessId → ℕ → ℕ
  reported : List (ℕ × VerMallocInstance)
  reportsTaken : ℕ → ℕ

def State.init : State :=
  ⟨fun _ => .init, fun _ => .cleared, fun _ => 0, fun _ => [], fun _ _ => 0, [], fun _ => 0⟩

inductive Event
  | verMalloc (wid size : ℕ)
  | endIter (wid : ℕ)
  | processAlloc (p : ProcessId) (source : ℕ)
  | processReport (wid : ℕ)

namespace State

variable (pl : Pipeline) (s : State)

def send (wid : ℕ) (pages : List Page) : State :=
  { s with
    sent := Function.update s.sent wid
      (s.sent wid ++ pages.map fun page => (pl.iterationOf wid (s.ended wid), page)) }

def bufferVerMalloc (wid ptr size : ℕ) : State :=
  { s.send pl wid (s.buffers wid).flush with
    buffers := Function.update s.buffers wid ((s.buffers wid).put ptr size (-1)) }

def setProcess (i : ProcessId) (p : Process) : State :=
  { s with processes := Function.update s.processes i p }

def step : Event → Except Failure State
  | .verMalloc wid size => do
      let p ← (s.processes (.worker wid)).verMalloc wid size
      let ret := ((s.processes (.worker wid)).chunks wid).next
      return (s.setProcess (.worker wid) p).bufferVerMalloc pl wid ret (roundUp size alignment)
  | .endIter wid =>
      let buf := s.buffers wid
      return { s.send pl wid (broadcastMallocChunk buf.elem (buf.index * instanceSize)) with
        buffers := Function.update s.buffers wid .cleared
        ended := Function.update s.ended wid (s.ended wid + 1) }
  | .processAlloc i source =>
      if pl.Behind source i then
        match (s.sent source)[s.taken i source]? with
        | none => .error .queueEmpty
        | some (iter, page) => do
            let p ← (s.processes i).processAlloc source page instancesPerPage 0
            return { s.setProcess i p with
              taken := Function.update s.taken i
                (Function.update (s.taken i) source (s.taken i source + 1))
              reported := if i = .commit ∧ iter = 0 then
                s.reported ++ (recordsOf page).map fun r => (source, r) else s.reported }
      else .error .notBehind
  | .processReport wid =>
      match s.reported[s.reportsTaken wid]? with
      | none => .error .queueEmpty
      | some (source, r) => do
          let p ← (s.processes (.worker wid)).processReport pl wid source r
          return { s.setProcess (.worker wid) p with
            reportsTaken := Function.update s.reportsTaken wid (s.reportsTaken wid + 1) }

end State

def run (pl : Pipeline) (events : List Event) : Except Failure State :=
  events.foldlM (fun s e => s.step pl e) .init

/-! ### What a replay has to do -/

def State.processed (s : State) (i : ProcessId) (source : ℕ) : List VerMallocInstance :=
  ((s.sent source).take (s.taken i source)).flatMap fun x => recordsOf x.2

def callsOf (events : List Event) (wid : ℕ) : List ℕ :=
  events.filterMap fun
    | .verMalloc w size => if w = wid then some size else none
    | _ => none

def Process.Maps (p : Process) (r : VerMallocInstance) : Prop :=
  ∀ a, r.ptr ≤ a → a < r.ptr + r.size → pageOf a ∈ p.mapped ∧ getShadowOf (pageOf a) ∈ p.mapped

/-- The process has followed the worker: its entry is what the worker's own one was after as many calls, and
the blocks of these calls are mapped. -/
def Follows (pl : Pipeline) (events : List Event) (s : State) (i : ProcessId) (source : ℕ) : Prop :=
  (∀ before s', before <+: events → run pl before = .ok s' →
    (callsOf before source).length = (s.processed i source).length →
    (s.processes i).chunks source = (s'.processes (.worker source)).chunks source) ∧
  ∀ r ∈ s.processed i source, (s.processes i).Maps r

/-- The replay of the run is exact: no assertion of `update_ver_malloc` fails, and every process behind a worker
has followed it. -/
def ReplaysExactly (pl : Pipeline) (events : List Event) : Prop :=
  run pl events ≠ .error .pointerMismatch ∧ run pl events ≠ .error .replayOutOfRange ∧
    ∀ s, run pl events = .ok s → ∀ i source, pl.Behind source i → Follows pl events s i source

/-- The call needs at most one more chunk. -/
def OneChunk (c : VerMallocChunk) (size : ℕ) : Prop :=
  c.next + roundUp size alignment ≤ c.nextChunk + verMallocChunkSize

instance (c : VerMallocChunk) (size : ℕ) : Decidable (OneChunk c size) :=
  inferInstanceAs (Decidable (_ ≤ _))

def CallsOneChunk (pl : Pipeline) (events : List Event) : Prop :=
  ∀ before wid size, before ++ [.verMalloc wid size] <+: events → ∀ s, run pl before = .ok s →
    OneChunk ((s.processes (.worker wid)).chunks wid) size

end Cpf.Smtx.VerMalloc
