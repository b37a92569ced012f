import Cpf.Basics.CollectKept
import Cpf.Executive.ReduxList

/-!
# Reductions during an invocation

The workers update their reduction objects, in their heaps or, for a register reduction, in
registers that are stored before each checkpoint. They merge into the checkpoints, which are
combined and adopted. A worker starts with a copy of the heap of the main process, as the mapping of
its own heap is replaced by one of the heap of the main checkpoint.
-/

namespace Cpf.Executive

/-- What the iterations do to the reduction objects: what an iteration adds to or takes the maximum
with in an element, and the payload of its float. Who runs it and in which checkpoint it is. -/
structure ReduxLoop (F : Type*) (n : ℕ) where
  owner : ℕ → Fin n
  round : ℕ → ℕ
  round_mono : Monotone round
  adds : ℕ → ℕ → ℕ → UInt32
  maxs : ℕ → ℕ → ℕ → UInt64
  vals : ℕ → ℕ → ℕ → Option F
  payloads : ℕ → ℕ → UInt64

/-- A worker: its heap, its registers, `lastReduxUpdateIter`, the number of its checkpoints and the
first iteration that it has not passed. `carried` records its heap as the start or its last
checkpoint left it. -/
structure ReduxWorker (F : Type*) where
  mem : ReduxMem F
  regs : ReduxMem F
  lastUp : ℕ
  merges : ℕ
  next : ℕ
  carried : ReduxMem F

structure ReduxChkpt (F : Type*) where
  iteration : ℕ
  numWorkers : ℕ
  side : ReduxSide F

/-- `done` records the iterations that have been run. -/
structure ReduxTeam (F : Type*) (n : ℕ) where
  main : ReduxSide F
  workers : Fin n → ReduxWorker F
  used : List (ReduxChkpt F)
  done : Finset ℕ

inductive ReduxAction (F : Type*) (n : ℕ)
  | run (i : ℕ)
  | merge (w : Fin n) (object : ReduxSide F)
  | combine (k : ℕ)
  | adopt

variable {F : Type*} [LinearOrder F] {n : ℕ}

namespace ReduxList

variable (r : ReduxList)

/-- Other objects depend on this one. -/
def IsKey (au : ℕ) : Bool := r.infos.any (fun info => info.dep = some au)

/-- Iteration `i` updates an object. The iteration of the last update is set when the object that
others depend on has got a new value. -/
def updateUnit (loop : ReduxLoop F n) (i : ℕ) (info : ReduxInfo) (s : ReduxSide F) :
    ReduxSide F :=
  match info.type with
  | .addI32 =>
      ⟨s.mem.setI32 info.au (fun e => if e < info.elems then
        s.mem.i32 info.au e + loop.adds i info.au e else s.mem.i32 info.au e), s.lastUp⟩
  | .maxU64 =>
      match info.dep with
      | none =>
          ⟨s.mem.setU64 info.au (fun e => if e < info.elems ∧
            loop.maxs i info.au e > s.mem.u64 info.au e then loop.maxs i info.au e
            else s.mem.u64 info.au e), s.lastUp⟩
      | some k =>
          if ∃ v ∈ loop.vals i k 0, v > s.mem.f32 k 0 then
            ⟨s.mem.setU64 info.au (Function.update (s.mem.u64 info.au) 0
              (loop.payloads i info.au)), s.lastUp⟩
          else s
  | .maxF32 =>
      ⟨s.mem.setF32 info.au (fun e => if e < info.elems then
          (match loop.vals i info.au e with
            | some v => max (s.mem.f32 info.au e) v
            | none => s.mem.f32 info.au e)
          else s.mem.f32 info.au e),
        if r.IsKey info.au ∧ ∃ v ∈ loop.vals i info.au 0, v > s.mem.f32 info.au 0 then i
        else s.lastUp⟩

/-- Where the loop updates an object: in a register, or in the heap. -/
def updateWorker (loop : ReduxLoop F n) (i : ℕ) (p : ReduxWorker F) (info : ReduxInfo) :
    ReduxWorker F :=
  if info.reg then
    let s := r.updateUnit loop i info ⟨p.regs, p.lastUp⟩
    { p with regs := s.mem, lastUp := s.lastUp }
  else
    let s := r.updateUnit loop i info ⟨p.mem, p.lastUp⟩
    { p with mem := s.mem, lastUp := s.lastUp }

def iterate (loop : ReduxLoop F n) (i : ℕ) (p : ReduxWorker F) : ReduxWorker F :=
  r.infos.foldl (r.updateWorker loop i) p

end ReduxList

def ReduxInfo.storeRegister (info : ReduxInfo) (regs m : ReduxMem F) : ReduxMem F :=
  match info.type with
  | .addI32 => m.setI32 info.au (fun e => if e < info.elems then regs.i32 info.au e
      else m.i32 info.au e)
  | .maxU64 => m.setU64 info.au (fun e => if e < info.elems then regs.u64 info.au e
      else m.u64 info.au e)
  | .maxF32 => m.setF32 info.au (fun e => if e < info.elems then regs.f32 info.au e
      else m.f32 info.au e)

def ReduxList.storeRegisters (r : ReduxList) (regs m : ReduxMem F) : ReduxMem F :=
  r.infos.foldl (fun m info => if info.reg then info.storeRegister regs m else m) m

namespace ReduxTeam

/-- The reduction heap of a checkpoint when a worker merges into it. Its last update is that of the
recycled object until the first update. -/
def prepared (r : ReduxList) (lowest : F) (c : ReduxChkpt F) : ReduxSide F :=
  if c.numWorkers = 0 then ⟨r.initializeCheckpointRedux lowest false c.side.mem, c.side.lastUp⟩
  else c.side

/-- `__specpriv_worker_perform_checkpoint_locked`, as far as reductions go. -/
def performCheckpoint (r : ReduxList) (lowest : F) (src : ReduxSide F) (c : ReduxChkpt F) :
    ReduxMem F × ReduxChkpt F :=
  let d := r.distill src (prepared r lowest c)
  (d.1, { c with numWorkers := c.numWorkers + 1, side := d.2 })

/-- `__specpriv_get_checkpoint_for_iter` and the merge: the heap of the worker and the checkpoints
afterwards. A new checkpoint takes the recycled `object`, whatever it holds. -/
def mergeInto (r : ReduxList) (lowest : F) (iter : ℕ) (object : ReduxSide F) (src : ReduxSide F) :
    List (ReduxChkpt F) → ReduxMem F × List (ReduxChkpt F)
  | [] =>
      let d := performCheckpoint r lowest src ⟨iter, 0, object⟩
      (d.1, [d.2])
  | c :: cs =>
      if c.iteration = iter then
        let d := performCheckpoint r lowest src c
        (d.1, d.2 :: cs)
      else
        let d := mergeInto r lowest iter object src cs
        (d.1, c :: d.2)

/-- The older checkpoint of a combination, with its register reductions initialised. -/
def committed (r : ReduxList) (lowest : F) (older : ReduxChkpt F) : ReduxSide F :=
  ⟨r.initializeCheckpointRedux lowest true older.side.mem, older.side.lastUp⟩

def combineRedux (r : ReduxList) (lowest : F) (older newer : ReduxChkpt F) : ReduxChkpt F :=
  { newer with side := (r.distill (committed r lowest older) newer.side).2 }

/-- The checkpoints after the combination of those at `k` and `k + 1`; the code combines those at
the front. -/
def combineAt (r : ReduxList) (lowest : F) (n : ℕ) :
    ℕ → List (ReduxChkpt F) → Option (List (ReduxChkpt F))
  | 0, a :: b :: cs =>
      if a.numWorkers = n ∧ b.numWorkers = n then some (combineRedux r lowest a b :: cs) else none
  | k + 1, c :: cs => (combineAt r lowest n k cs).map (c :: ·)
  | _, _ => none

def start (main : ReduxSide F) (lastUp : Fin n → ℕ) : ReduxTeam F n where
  main := main
  workers := fun w => ⟨main.mem, main.mem, lastUp w, 0, 0, main.mem⟩
  used := []
  done := ∅

def setWorker (s : ReduxTeam F n) (w : Fin n) (p : ReduxWorker F) : ReduxTeam F n :=
  { s with workers := Function.update s.workers w p }

def source (r : ReduxList) (p : ReduxWorker F) : ReduxSide F :=
  ⟨r.storeRegisters p.regs p.mem, p.lastUp⟩

def step (r : ReduxList) (lowest : F) (loop : ReduxLoop F n) (s : ReduxTeam F n) :
    ReduxAction F n → Option (ReduxTeam F n)
  | .run i =>
      let p := s.workers (loop.owner i)
      if p.next ≤ i ∧ loop.round i = p.merges then
        some { s.setWorker (loop.owner i) { r.iterate loop i p with next := i + 1 } with
          done := insert i s.done }
      else none
  | .merge w object =>
      let p := s.workers w
      let d := mergeInto r lowest p.merges object (source r p) s.used
      some { s.setWorker w { p with mem := d.1, merges := p.merges + 1, carried := d.1 } with
        used := d.2 }
  | .combine k => (combineAt r lowest n k s.used).map (fun used => { s with used := used })
  | .adopt =>
      match s.used with
      | c :: cs =>
          if c.numWorkers = n then
            some { s with main := { s.main with mem := (r.distill c.side s.main).2.mem }, used := cs }
          else none
      | [] => none

def target (iter : ℕ) (object : ReduxSide F) (cs : List (ReduxChkpt F)) : ReduxChkpt F :=
  (cs.find? (fun c => c.iteration = iter)).getD ⟨iter, 0, object⟩

def distills (r : ReduxList) (lowest : F) (s : ReduxTeam F n) :
    ReduxAction F n → Option (ReduxSide F × ReduxSide F)
  | .run _ => none
  | .merge w object =>
      some (source r (s.workers w), prepared r lowest (target (s.workers w).merges object s.used))
  | .combine k =>
      match s.used[k]?, s.used[k + 1]? with
      | some a, some b => some (committed r lowest a, b.side)
      | _, _ => none
  | .adopt => s.used.head?.map (fun c => (c.side, s.main))

/-- All that the iterations have contributed is with the main process. -/
def Finished (loop : ReduxLoop F n) (s : ReduxTeam F n) : Prop :=
  s.used = [] ∧ ∀ i ∈ s.done, loop.round i < (s.workers (loop.owner i)).merges

end ReduxTeam
end Cpf.Executive
