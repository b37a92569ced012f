import Cpf.Basics.BinaryHeap
import Cpf.Basics.Iterate
import Cpf.Basics.Loop
import Mathlib.Data.Fintype.Card

/-!
# The commit of transactional output

Operations and transactions form a tree. The children of a transaction carry time vectors. An
operation is suspended until its event and the events before it have reached the commit thread, which
calls `processEvt` for every event: one for each operation, and one for each transaction when it is
closed with the number of its children.
-/

namespace Cpf.Txio

/-! ### Time vectors -/

abbrev Time := List UInt32

def compareTvLte : Time → Time → Bool
  | [], [] => true
  | [], _ :: _ => false
  | _ :: _, [] => true
  | a :: as, b :: bs => if b < a then false else if a < b then true else compareTvLte as bs

def isAllZero (b : Time) : Bool := b.all fun i => i = 0

/-- The loop of `tv_are_adjacent`. If the first vector ends within the second, the code compares what
is behind its end until it finds a difference or the end of the second, and returns 0 in any case. -/
def areAdjacentFrom : Time → Time → Bool
  | [], bs => isAllZero bs
  | _ :: _, [] => false
  | a :: as, b :: bs =>
      if as = [] ∧ a + 1 = b ∧ isAllZero bs then true
      else if a ≠ b then false else areAdjacentFrom as bs

def tvAreAdjacent : Option Time → Time → Bool
  | none, b => isAllZero b
  | some a, b => areAdjacentFrom a b

/-! ### Transactions -/

structure TxTree (N : Type) where
  root : N
  parent : N → Option N
  isTx : N → Bool
  time : N → Time
  depth : N → ℕ
  parent_root : parent root = none
  isTx_root : isTx root = true
  eq_root : ∀ x, parent x = none → x = root
  isTx_parent : ∀ x p, parent x = some p → isTx p = true
  depth_parent : ∀ x p, parent x = some p → depth x = depth p + 1

def unknown : ℕ := 2 ^ 32 - 1

/-- `struct s_transaction`, without what does not change. -/
structure TX (N : Type) where
  ready : Bool
  inParentQ : Bool
  total : ℕ
  already : ℕ
  upto : Option Time
  queue : List N
  capacity : ℕ

def TX.Done {N : Type} (t : TX N) : Prop := t.total ≠ unknown ∧ t.total ≤ t.already

instance {N : Type} (t : TX N) : Decidable t.Done := inferInstanceAs (Decidable (_ ∧ _))

inductive Action (N : Type)
  | run (op : N)
  | free (tx : N)
  deriving DecidableEq

instance {N : Type} [DecidableEq N] : LawfulBEq (Action N) := inferInstance

/-- The transactions that are not freed, and what was done so far. -/
structure State (N : Type) where
  tx : N → Option (TX N)
  log : List (Action N)

inductive Failure
  | assertion
  | badPointer
  | outOfFuel
  deriving DecidableEq

variable {N : Type} [DecidableEq N]

namespace State

def set (s : State N) (x : N) (t : TX N) : State N := { s with tx := Function.update s.tx x (some t) }

def free (s : State N) (x : N) : State N where
  tx := Function.update s.tx x none
  log := s.log ++ [.free x]

end State

def sizeQ (queue : List N) : ℕ := queue.length % 2 ^ 32

def minCapacity : ℕ := 16

/-- `maybe_grow`: the capacity of a queue that gets one event more. -/
def maybeGrow (length capacity : ℕ) : ℕ :=
  if capacity < (length + 1) % 2 ^ 32 then max minCapacity (2 * capacity % 2 ^ 32) else capacity

namespace TxTree

variable (T : TxTree N)

def lte (x y : N) : Bool := compareTvLte (T.time x) (T.time y)

/-- The record of a transaction that gets an event in its queue. -/
def inserted (x : N) (t : TX N) : TX N :=
  { t with
    queue := BinaryHeap.insert T.lte x t.queue
    capacity := maybeGrow t.queue.length t.capacity }

/-- `insert_evt`. It writes behind the end of the array if that has not become larger. -/
def insertEvt (x : N) (t : TX N) : Except Failure (TX N) :=
  if maybeGrow t.queue.length t.capacity ≤ t.queue.length then .error .badPointer
  else .ok (T.inserted x t)

def removeminEvt (queue : List N) : List N := BinaryHeap.removePos T.lte 0 queue

def removeFromQ (x : N) (queue : List N) : List N :=
  if x ∈ queue then BinaryHeap.removePos T.lte (queue.idxOf x) queue else queue

def opened (x : N) : TX N where
  ready := decide (x = T.root)
  inParentQ := decide (x = T.root)
  total := unknown
  already := 0
  upto := none
  queue := []
  capacity := 0

def initial : State N where
  tx x := if T.isTx x then some (T.opened x) else none
  log := []

/-- The state of the loop of `progress`: without a transaction when the root is done. -/
structure Progress (N : Type) where
  state : State N
  tx : Option N

/-- The part of `progress` for a transaction that is done. A transaction that is freed must not be
looked at. -/
def finish (s : State N) (x : N) (t : TX N) : Except Failure (Progress N) :=
  if t.already ≠ t.total ∨ sizeQ t.queue ≠ 0 then .error .assertion
  else
    match T.parent x with
    | none => .ok ⟨s.free x, none⟩
    | some p =>
        match s.tx p with
        | none => .error .badPointer
        | some parent =>
            let parent :=
              if t.inParentQ then
                { parent with
                  upto := if parent.queue.head? = some x then some (T.time x) else parent.upto
                  queue := T.removeFromQ x parent.queue }
              else parent
            .ok ⟨(s.free x).set p { parent with already := (parent.already + 1) % 2 ^ 32 }, some p⟩

/-- The transaction has got all its children, or the event at the front is the next one. -/
def mayExecute (t : TX N) (front : N) : Bool :=
  decide (t.total ≠ unknown ∧ t.total = (t.already + sizeQ t.queue) % 2 ^ 32) ||
    tvAreAdjacent t.upto (T.time front)

def execute (s : State N) (x : N) (t : TX N) : Except Failure (Option (Progress N)) :=
  match t.queue with
  | [] => .ok none
  | front :: _ =>
      if !T.mayExecute t front then .ok none
      else if T.isTx front then
        match s.tx front with
        | none => .error .badPointer
        | some child => .ok (some ⟨s.set front { child with ready := true }, some front⟩)
      else
        .ok (some ⟨{ s.set x
            { t with
              queue := T.removeminEvt t.queue
              upto := some (T.time front)
              already := (t.already + 1) % 2 ^ 32 } with
          log := s.log ++ [.run front] }, some x⟩)

/-- The part of `progress` for a transaction that is not done. -/
def advance (s : State N) (x : N) (t : TX N) : Except Failure (Option (Progress N)) :=
  match T.parent x with
  | some p =>
      if !t.inParentQ then
        match s.tx p with
        | none => .error .badPointer
        | some parent => do
            let parent ← T.insertEvt x parent
            return some ⟨(s.set x { t with inParentQ := true }).set p parent, some p⟩
      else if !t.ready then
        match s.tx p with
        | none => .error .badPointer
        | some parent => .ok (if parent.ready then some ⟨s, some p⟩ else none)
      else T.execute s x t
  | none => if t.ready then T.execute s x t else .error .badPointer

/-- One round of the loop of `progress`; `none` if the code leaves the loop. -/
def progressStep (l : Progress N) : Except Failure (Option (Progress N)) :=
  match l.tx with
  | none => .ok none
  | some x =>
      match l.state.tx x with
      | none => .error .badPointer
      | some t =>
          if t.Done then (T.finish l.state x t).map some
          else T.advance l.state x t

/-- `progress`: the state, and whether the root is done. -/
def progress (fuel : ℕ) (s : State N) (x : N) : Except Failure (State N × Bool) := do
  let l ← iterate .outOfFuel T.progressStep fuel ⟨s, some x⟩
  return (l.state, l.tx.isNone)

variable [Fintype N]

def children (x : N) : Finset N := Finset.univ.filter fun y => T.parent y = some x

def notTotal (x : N) : ℕ := (T.children x).card % 2 ^ 32

/-- The beginning of `process_evt`, for the event of an operation or of the close of a transaction: the
state with the event, and the transaction that has changed. -/
def receive (s : State N) (x : N) : Except Failure (State N × N) :=
  if T.isTx x then
    match s.tx x with
    | none => .error .badPointer
    | some t =>
        .ok (s.set x (if t.total = unknown ∧ T.notTotal x ≠ unknown then
          { t with total := T.notTotal x } else t), x)
  else
    match T.parent x with
    | none => .error .assertion
    | some p =>
        match s.tx p with
        | none => .error .badPointer
        | some parent => do
            let parent ← T.insertEvt x parent
            return (s.set p parent, p)

def processEvt (fuel : ℕ) (s : State N) (x : N) : Except Failure (State N × Bool) := do
  let (s, tx) ← T.receive s x
  T.progress fuel s tx

/-- The events in the order in which they arrive, with what each call returns. -/
def processEvts (fuel : ℕ) : List N → State N → Except Failure (State N × List Bool)
  | [], s => .ok (s, [])
  | x :: evts, s => do
      let (s, done) ← T.processEvt fuel s x
      let (s, dones) ← processEvts fuel evts s
      return (s, done :: dones)

end TxTree

end Cpf.Txio
