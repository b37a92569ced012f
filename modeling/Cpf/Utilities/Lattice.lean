import Cpf.Basics.Iterate
import Mathlib.Data.List.Nodup

/-!
# The lattice container

`Lattice` keeps elements in a graph whose links lead from smaller to larger elements. An iterator visits
the nodes in topological order, forwards or backwards, and counts for each node how many links to it are
still missing; `prune` hides a node and everything behind it. `insert` searches forwards for the nodes above
the new element and backwards for the ones below, and links the new node while it iterates.
-/

namespace Cpf.Utilities

/-- An entry of `degrees`. `INFINITE_DEGREE` marks the nodes that are pruned; it is a value of its own, above
the number of links that a node can have. -/
inductive Degree
  | finite (d : ℕ)
  | infinite
  deriving DecidableEq

inductive LatticeFailure
  | badPointer
  | outOfFuel
  deriving DecidableEq

/-- `PartialOrder`; its order may be reflexive or strict. -/
structure LatticeOrder (α : Type) where
  compare : α → α → Bool
  trans : ∀ a b c, compare a b = true → compare b c = true → compare a c = true
  antisymm : ∀ a b, compare a b = true → compare b a = true → a = b

/-- The nodes are numbered as they are created, and their number stands for their address. -/
structure Lattice (α : Type) where
  values : List α
  preds : ℕ → List ℕ
  succs : ℕ → List ℕ
  sources : List ℕ
  sinks : List ℕ

structure LatticeIterator where
  isForward : Bool
  isEnd : Bool
  next : ℕ
  fringe : List ℕ
  degrees : ℕ → Option Degree

variable {α : Type}

namespace Lattice

def empty : Lattice α := ⟨[], fun _ => [], fun _ => [], [], []⟩

def out (l : Lattice α) (isForward : Bool) (n : ℕ) : List ℕ := if isForward then l.succs n else l.preds n

/-- The number of links that lead an iterator to the node. -/
def numIn (l : Lattice α) (isForward : Bool) (n : ℕ) : ℕ :=
  if isForward then (l.preds n).length else (l.succs n).length

end Lattice

/-! ### The iterator -/

/-- The nodes that are still to be visited, and the degrees. -/
abbrev FringeState := List ℕ × (ℕ → Option Degree)

def pruneStep (out : ℕ → List ℕ) (s : FringeState) : Except LatticeFailure (Option FringeState) :=
  match s.1 with
  | [] => .ok none
  | n :: fringe =>
      if s.2 n = some .infinite then .ok (some (fringe, s.2))
      else .ok (some (out n ++ fringe, Function.update s.2 n (some .infinite)))

def pruneFuel (l : Lattice α) (isForward : Bool) : ℕ :=
  ((List.range l.values.length).map fun n => (l.out isForward n).length + 1).sum + 2

/-- One round of the loop in `operator++`: a link to `n` is counted. -/
def countLink (numIn : ℕ → ℕ) (s : FringeState) (n : ℕ) : FringeState :=
  match (s.2 n).getD (.finite (numIn n)) with
  | .infinite => s
  | .finite d =>
      (if d = 1 then n :: s.1 else s.1, Function.update s.2 n (some (.finite (d - 1))))

/-- The first node of the fringe that is not pruned, and what follows it. -/
def popNext (degrees : ℕ → Option Degree) : List ℕ → Option (ℕ × List ℕ)
  | [] => none
  | n :: fringe => if degrees n = some .infinite then popNext degrees fringe else some (n, fringe)

namespace LatticeIterator

def prune (it : LatticeIterator) (l : Lattice α) (badNode : ℕ) : Except LatticeFailure LatticeIterator := do
  let s ← iterate .outOfFuel (pruneStep (l.out it.isForward)) (pruneFuel l it.isForward)
    ([badNode], it.degrees)
  return { it with degrees := s.2 }

def advance (it : LatticeIterator) (l : Lattice α) : LatticeIterator :=
  match popNext it.degrees it.fringe with
  | none => { it with isEnd := true, fringe := [] }
  | some (n, fringe) =>
      let s := (l.out it.isForward n).foldl (countLink (l.numIn it.isForward)) (fringe, it.degrees)
      { it with isEnd := false, next := n, fringe := s.1, degrees := s.2 }

def start (l : Lattice α) (roots : List ℕ) (isForward : Bool) : LatticeIterator :=
  LatticeIterator.advance ⟨isForward, false, 0, roots, fun _ => none⟩ l

end LatticeIterator

namespace Lattice

def begin (l : Lattice α) : LatticeIterator := .start l l.sources true

def rbegin (l : Lattice α) : LatticeIterator := .start l l.sinks false

/-- One round of a loop from `begin` to `end` that lists the nodes. -/
def visitStep (l : Lattice α) (s : LatticeIterator × List ℕ) :
    Except LatticeFailure (Option (LatticeIterator × List ℕ)) :=
  if s.1.isEnd then .ok none else .ok (some (s.1.advance l, s.2 ++ [s.1.next]))

def visited (l : Lattice α) (it : LatticeIterator) : Except LatticeFailure (List ℕ) := do
  let s ← iterate .outOfFuel l.visitStep (l.values.length + 1) (it, [])
  return s.2

/-! ### `insert` -/

variable (order : LatticeOrder α) (elt : α) (new : ℕ)

/-- The body of the first loop of `insert`. -/
def searchForward (l : Lattice α) (i : LatticeIterator) (n : ℕ) :
    Except LatticeFailure (Lattice α × LatticeIterator) :=
  match l.values[n]? with
  | none => .error .badPointer
  | some v =>
      if order.compare elt v then do
        let l := { l with
          succs := Function.update l.succs new (l.succs new ++ [n])
          preds := Function.update l.preds n (new :: l.preds n)
          sources := if l.preds n = [] then l.sources.filter (· ≠ n) else l.sources }
        let i ← i.prune l n
        return (l, i)
      else .ok (l, i)

/-- The body of the second loop of `insert`. -/
def searchReverse (l : Lattice α) (i : LatticeIterator) (n : ℕ) :
    Except LatticeFailure (Lattice α × LatticeIterator) :=
  match l.values[n]? with
  | none => .error .badPointer
  | some v =>
      if n = new then do
        let i ← i.prune l n
        return (l, i)
      else if order.compare v elt ∧ ¬ order.compare elt v then do
        let l := { l with
          preds := Function.update l.preds new (n :: l.preds new)
          succs := Function.update l.succs n (l.succs n ++ [new])
          sinks := if l.succs n = [] then l.sinks.filter (· ≠ n) else l.sinks }
        let i ← i.prune l n
        return (l, i)
      else .ok (l, i)

def searchStep (body : Lattice α → LatticeIterator → ℕ → Except LatticeFailure (Lattice α × LatticeIterator))
    (s : Lattice α × LatticeIterator) : Except LatticeFailure (Option (Lattice α × LatticeIterator)) :=
  if s.2.isEnd then .ok none
  else do
    let (l, i) ← body s.1 s.2 s.2.next
    return some (l, i.advance l)

def newNode (l : Lattice α) : Lattice α :=
  { l with
    values := l.values ++ [elt]
    preds := Function.update l.preds l.values.length []
    succs := Function.update l.succs l.values.length [] }

def pushEnds (l : Lattice α) : Lattice α :=
  { l with
    sources := if l.preds new = [] then l.sources ++ [new] else l.sources
    sinks := if l.succs new = [] then l.sinks ++ [new] else l.sinks }

def insert (l : Lattice α) : Except LatticeFailure (Lattice α) := do
  let new := l.values.length
  let l := l.newNode elt
  let s ← iterate .outOfFuel (searchStep (searchForward order elt new)) (l.values.length + 1) (l, l.begin)
  let s ← iterate .outOfFuel (searchStep (searchReverse order elt new)) (l.values.length + 1)
    (s.1, s.1.rbegin)
  return s.1.pushEnds new

end Lattice

def insertAll (order : LatticeOrder α) (elts : List α) : Except LatticeFailure (Lattice α) :=
  elts.foldlM (fun l elt => l.insert order elt) .empty

end Cpf.Utilities
