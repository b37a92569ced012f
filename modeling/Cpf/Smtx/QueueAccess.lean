import Cpf.Basics.RingIndex
import Cpf.Smtx.AStream

/-!
# The single accesses to a queue of any size

One producer and one consumer run on a ring whose sizes are macros. Every load and store of the shared
indices and of the data is a step of its own, and the steps of the two interleave in any way. Beside the
queue a state has what was produced, how much of it was published with the last store of the
producer's index, and for each value in turn what became of it: it was consumed, or skipped by
`sq_emptyQueue`.
-/

namespace Cpf.Smtx

/-- The macros `QSIZE`, `CHUNK_SIZE` and `QMARGIN`, and whether `sq_produce2` is used instead of `sq_produce`.
The threshold is computed with `int`. -/
structure QueueSizes where
  qLog : ℕ
  chunkLog : ℕ
  qMargin : ℕ
  pairs : Bool
  margin_pos : 0 < qMargin
  index : qLog < 31
  product : (qMargin - 1) * 2 ^ qLog < 2 ^ 31

namespace QueueSizes

variable (c : QueueSizes)

def qSize : ℕ := 2 ^ c.qLog

def chunkSize : ℕ := 2 ^ c.chunkLog

def qMask : ℕ := c.qSize - 1

def threshold : ℕ := (c.qMargin - 1) * c.qSize / c.qMargin

/-- How many values one call produces. -/
def width : ℕ := if c.pairs then 2 else 1

def modSub (minuend subtrahend : ℕ) : ℕ := (minuend + 2 ^ 32 - subtrahend) % 2 ^ 32 &&& c.qMask

/-- The test of `sq_waitConsumer`. -/
def Crowded (q : SwQueue) : Prop := c.threshold < c.modSub q.pInx q.cGlbInx

instance (q : SwQueue) : Decidable (c.Crowded q) := inferInstanceAs (Decidable (_ < _))

def AtMost : Prop := c.chunkSize * c.qMargin ≤ c.qSize

instance : Decidable c.AtMost := inferInstanceAs (Decidable (_ ≤ _))

/-- `CHUNK_SIZE` is less than `QSIZE / QMARGIN`, and so is what one call produces. -/
def Roomy : Prop := max c.chunkSize c.width * c.qMargin < c.qSize

end QueueSizes

inductive ProducerPc
  | idle
  | store (values : List Word) (i : ℕ)
  | test
  | callback
  | spin
  | flush
  deriving DecidableEq

inductive ConsumerPc
  | idle
  | test
  | callback
  | spin
  | fastPath
  | refill
  | load
  | empty
  | reverseFlush
  deriving DecidableEq

structure QueueState where
  queue : SwQueue
  producer : ProducerPc
  consumer : ConsumerPc
  produced : List Word
  visible : ℕ
  fates : List (Option Word)

def QueueState.initial : QueueState := ⟨.init, .idle, .idle, [], 0, []⟩

variable (c : QueueSizes)

/-! ### The producer -/

def sqProduce (value : Word) : ProducerPc := .store [value] 0

def sqProduce2 (a b : Word) : ProducerPc := .store [a, b] 0

/-- One store of `sq_produce` or `sq_produce2`, or the update of `p_data` behind the last one. -/
def QueueState.store (s : QueueState) (values : List Word) (i : ℕ) : QueueState :=
  match values[i]? with
  | some value =>
      { s with
        queue := { s.queue with data := Function.update s.queue.data (s.queue.pInx + i) value }
        producer := .store values (i + 1) }
  | none =>
      let pInx := (s.queue.pInx + values.length) &&& c.qMask
      { s with
        queue := { s.queue with pInx := pInx }
        produced := s.produced ++ values
        producer := if pInx &&& (c.chunkSize - 1) = 0 then .test else .idle }

def QueueState.flush (s : QueueState) (next : ProducerPc) : QueueState :=
  { s with queue := s.queue.flush, visible := s.produced.length, producer := next }

/-- The next access of the producer; `sq_waitConsumer` begins at `test`, and its callback is
`sq_flushQueue`. -/
def QueueState.produceStep (s : QueueState) : Option QueueState :=
  match s.producer with
  | .idle => none
  | .store values i => some (s.store c values i)
  | .test => some { s with producer := if c.Crowded s.queue then .callback else .flush }
  | .callback => some (s.flush .spin)
  | .spin => some { s with producer := if c.Crowded s.queue then .spin else .idle }
  | .flush => some (s.flush .idle)

/-! ### The consumer -/

/-- `sq_consume`, which goes to memory for the margin only when it is used up. -/
def sqConsume (q : SwQueue) : ConsumerPc := if q.cInx = q.cMargin then .test else .load

def QueueState.reverseFlush (s : QueueState) (next : ConsumerPc) : QueueState :=
  { s with queue := s.queue.reverseFlush, consumer := next }

def QueueState.load (s : QueueState) : QueueState :=
  { s with
    queue := { s.queue with cInx := (s.queue.cInx + 1) &&& c.qMask }
    fates := s.fates ++ [some s.queue.next]
    consumer := .idle }

def QueueState.skipAll (s : QueueState) : QueueState :=
  { s with
    queue := { s.queue with cInx := s.queue.pGlbInx, cMargin := s.queue.pGlbInx }
    fates := s.fates ++ List.replicate (s.visible - s.fates.length) none
    consumer := .reverseFlush }

/-- The next access of the consumer; `sq_waitAllocated` begins at `test`, and its callback is
`sq_reverseFlush`. -/
def QueueState.consumeStep (s : QueueState) : Option QueueState :=
  match s.consumer with
  | .idle => none
  | .test =>
      some { s with consumer := if s.queue.pGlbInx = s.queue.cInx then .callback else .fastPath }
  | .callback => some (s.reverseFlush .spin)
  | .spin => some { s with consumer := if s.queue.pGlbInx = s.queue.cInx then .spin else .refill }
  | .fastPath => some (s.reverseFlush .refill)
  | .refill => some { s with queue := s.queue.refill, consumer := .load }
  | .load => some (s.load c)
  | .empty => some s.skipAll
  | .reverseFlush => some (s.reverseFlush .idle)

/-! ### Both -/

/-- A call of one of the two, or its next access. -/
inductive QueueMove
  | produce (value : Word)
  | produce2 (a b : Word)
  | flushQueue
  | producer
  | consume
  | reverseFlush
  | emptyQueue
  | consumer
  deriving DecidableEq

def QueueState.move (s : QueueState) : QueueMove → Option QueueState
  | .produce value =>
      if s.producer = .idle ∧ c.pairs = false then some { s with producer := sqProduce value } else none
  | .produce2 a b =>
      if s.producer = .idle ∧ c.pairs = true then some { s with producer := sqProduce2 a b } else none
  | .flushQueue => if s.producer = .idle then some { s with producer := .flush } else none
  | .producer => s.produceStep c
  | .consume => if s.consumer = .idle then some { s with consumer := sqConsume s.queue } else none
  | .reverseFlush => if s.consumer = .idle then some { s with consumer := .reverseFlush } else none
  | .emptyQueue => if s.consumer = .idle then some { s with consumer := .empty } else none
  | .consumer => s.consumeStep c

def runQueue (moves : List QueueMove) : Option QueueState := moves.foldlM (QueueState.move c) .initial

structure Fifo (s : QueueState) : Prop where
  taken_le : s.fates.length ≤ s.visible
  visible_le : s.visible ≤ s.produced.length
  values : ∀ (i : ℕ) (value : Word), s.fates[i]? = some (some value) → s.produced[i]? = some value
  readPublished : s.consumer = .load → s.fates.length < s.visible
  readNext : s.consumer = .load → s.produced[s.fates.length]? = some s.queue.next
  notOverwritten : ∀ values i, s.producer = .store values i →
    s.produced.length + values.length ≤ s.fates.length + c.qSize
  waitsIfEmpty : s.queue.pGlbInx = s.queue.cInx ↔ s.visible = s.fates.length
  wholePairs : c.pairs = true → s.visible % 2 = 0 ∧
    (s.fates.length % 2 = 1 → s.queue.cInx ≠ s.queue.cMargin)

end Cpf.Smtx
