import Cpf.Basics.Trans
import Cpf.Pipeline.SwQueue

/-!
# A queue between two stages

A queue between a stage of `n` and a stage of `m` replicas, one of which is 1, has `n * m` rings. In
every iteration one replica of the producing stage makes a list of calls; one replica of the
consuming stage makes all the matching calls and the others those that are replicated. The replicas
go on in any order, one access to a ring at a time.
-/

namespace Cpf.Pipeline

/-- `__specpriv_produce` or `__specpriv_produce_replicated` with a value. -/
structure Call where
  replicated : Bool
  value : UInt64
  deriving DecidableEq

/-- The two stages and the calls of each iteration from `first` on. The iterations are counted by naturals,
so the 32-bit counter of the code does not wrap around. -/
structure Link where
  n : ℕ
  m : ℕ
  n_pos : 0 < n
  m_pos : 0 < m
  one : n = 1 ∨ m = 1
  first : ℕ
  trip : ℕ
  calls : ℕ → List Call

/-- A consume call of an iteration, its ring, and the value of the matching produce call. -/
structure Take (K : Type) where
  iter : ℕ
  ring : K
  value : UInt64

namespace Link

variable (l : Link)

def numQueues : ℕ := l.n * l.m

theorem numQueues_pos : 0 < l.numQueues := Nat.mul_pos l.n_pos l.m_pos

/-- The ring of a replica that has counted `iter` iterations. -/
def getQueue (iter : ℕ) : Fin l.numQueues := ⟨iter % l.numQueues, Nat.mod_lt _ l.numQueues_pos⟩

def produce (iter : ℕ) (c : Call) : List (Fin l.numQueues × UInt64) :=
  if c.replicated then (List.finRange l.numQueues).map (fun i => (i, c.value))
  else [(l.getQueue iter, c.value)]

/-- The ring that a consume call of replica `repId` loads from. -/
def consume (iter : ℕ) (repId : Fin l.m) (c : Call) : Fin l.numQueues :=
  if c.replicated then ⟨repId, lt_of_lt_of_le repId.isLt (Nat.le_mul_of_pos_left _ l.n_pos)⟩
  else l.getQueue iter

def iterations : List ℕ := (List.range l.trip).map (fun i => l.first + i)

def produces (repId : Fin l.n) : List (Fin l.numQueues × UInt64) :=
  l.iterations.flatMap (fun i =>
    if i % l.n = repId then (l.calls i).flatMap (l.produce i) else [])

def matching (repId : Fin l.m) (i : ℕ) : List Call :=
  if i % l.m = repId then l.calls i else (l.calls i).filter Call.replicated

def takes (repId : Fin l.m) : List (Take (Fin l.numQueues)) :=
  l.iterations.flatMap (fun i =>
    (l.matching repId i).map (fun c => ⟨i, l.consume i repId c, c.value⟩))

end Link

/-- A replica of the producing stage, with what it has still to do. -/
structure Producer (K : Type) where
  rest : List (K × UInt64)
  pc : ProducePc

/-- A replica of the consuming stage, with the iterations and rings of its further calls and what
its calls have returned. -/
structure Consumer (K : Type) where
  rest : List (ℕ × K)
  pc : ConsumePc
  returned : List (ℕ × UInt64)

structure Traffic (l : Link) where
  rings : Fin l.numQueues → Ring
  producers : Fin l.n → Producer (Fin l.numQueues)
  consumers : Fin l.m → Consumer (Fin l.numQueues)

inductive Side (l : Link)
  | producer (p : Fin l.n)
  | consumer (c : Fin l.m)

namespace Traffic

variable {l : Link}

def initial (l : Link) : Traffic l where
  rings _ := Ring.reset
  producers p := ⟨l.produces p, .wait⟩
  consumers c := ⟨(l.takes c).map (fun t => (t.iter, t.ring)), .wait, []⟩

def setProducer (s : Traffic l) (p : Fin l.n) (k : Fin l.numQueues) (ring : Ring)
    (P : Producer (Fin l.numQueues)) : Traffic l :=
  { s with
    rings := Function.update s.rings k ring
    producers := Function.update s.producers p P }

def setConsumer (s : Traffic l) (c : Fin l.m) (k : Fin l.numQueues) (ring : Ring)
    (C : Consumer (Fin l.numQueues)) : Traffic l :=
  { s with
    rings := Function.update s.rings k ring
    consumers := Function.update s.consumers c C }

/-- One access of a replica; `none` if it waits or has nothing more to do. -/
def step (s : Traffic l) : Side l → Option (Traffic l)
  | .producer p =>
      match (s.producers p).rest with
      | [] => none
      | (k, v) :: r =>
          match (s.rings k).produce v (s.producers p).pc with
          | none => none
          | some (ring, some pc) => some (s.setProducer p k ring ⟨(k, v) :: r, pc⟩)
          | some (ring, none) => some (s.setProducer p k ring ⟨r, .wait⟩)
  | .consumer c =>
      match (s.consumers c).rest with
      | [] => none
      | (i, k) :: r =>
          match (s.rings k).consume (s.consumers c).pc with
          | none => none
          | some (ring, .inl pc) =>
              some (s.setConsumer c k ring ⟨(i, k) :: r, pc, (s.consumers c).returned⟩)
          | some (ring, .inr v) =>
              some (s.setConsumer c k ring ⟨r, .wait, (s.consumers c).returned ++ [(i, v)]⟩)

def Finished (s : Traffic l) : Prop :=
  (∀ p, (s.producers p).rest = []) ∧ ∀ c, (s.consumers c).rest = []

end Traffic

section Work

variable {K : Type}

/-- The accesses that a producing replica has still to make. -/
def Producer.work (P : Producer K) : ℕ :=
  4 * P.rest.length - (match P.pc with
    | .wait => 0
    | .value => 1
    | .flag => 2
    | .advance => 3)

/-- The accesses that a consuming replica has still to make. -/
def Consumer.work (C : Consumer K) : ℕ :=
  5 * C.rest.length - (match C.pc with
    | .wait => 0
    | .load => 1
    | .clear _ => 2
    | .release _ => 3
    | .advance _ => 4)

end Work

namespace Traffic

variable {l : Link}

def work (s : Traffic l) : ℕ := ∑ p, (s.producers p).work + ∑ c, (s.consumers c).work

/-- The results that replica `repId` is to get, with the iterations of the calls. -/
def expected (l : Link) (repId : Fin l.m) : List (ℕ × UInt64) :=
  (l.takes repId).map (fun t => (t.iter, t.value))

/-- The calls that have returned gave the values of the matching calls in order. Some replica can go
on until all calls have returned, which is after finitely many accesses; then all results are there
and the rings are empty. -/
structure Routed (s : Traffic l) : Prop where
  returned : ∀ c, (s.consumers c).returned <+: expected l c
  goes : ¬ s.Finished → ∃ a s', s.step a = some s'
  ends : ∀ a s', s.step a = some s' → s'.work < s.work
  finished : s.Finished →
    (∀ c, (s.consumers c).returned = expected l c) ∧ ∀ k, (s.rings k).HoldsNothing

end Traffic

end Cpf.Pipeline
