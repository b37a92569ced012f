import Cpf.Graph.Conflict
import Mathlib.Logic.Relation

/-!
# The choice of the parallel stage

The DAG of the strongly connected components of the dependence graph of a loop, and
`findMaxGoodStage`: the components that pass a test and that no edge of a minimum cut of the network
of non-mergeable components touches.
-/

namespace Cpf.Pipeline

structure SCCEdge (α : Type) where
  outgoing : α
  incoming : α
  loopCarried : Bool
deriving DecidableEq, Repr

/-- A dependence of one component: whether its ends belong to the component, and whether it is
loop-carried. -/
structure InnerEdge where
  outgoingInternal : Bool
  incomingInternal : Bool
  loopCarried : Bool
deriving DecidableEq, Repr

def EdgeRel {α : Type} (edges : List (SCCEdge α)) (a b : α) : Prop :=
  ∃ e ∈ edges, e.outgoing = a ∧ e.incoming = b

/-- The DAG. Components are numbered such that the vertices of the network fit in 32 bits, edges can be
counted in 32 bits, and `orderedBefore` is reachability. -/
structure SCCDAG (α : Type) where
  nodes : List α
  edges : List (SCCEdge α)
  inner : α → List InnerEdge
  getSCCIndex : α → ℕ
  orderedBefore : α → α → Bool
  nodup : nodes.Nodup
  index_inj : ∀ a ∈ nodes, ∀ b ∈ nodes, getSCCIndex a = getSCCIndex b → a = b
  index_lt : ∀ a ∈ nodes, getSCCIndex a + 1 < 2 ^ 31
  counted : edges.length < 2 ^ 32 - 1
  ends : ∀ e ∈ edges, e.outgoing ∈ nodes ∧ e.incoming ∈ nodes
  ordered : ∀ a b, orderedBefore a b ↔ Relation.TransGen (EdgeRel edges) a b
  acyclic : ∀ a, ¬ Relation.TransGen (EdgeRel edges) a a

variable {α : Type} [DecidableEq α]

/-- The three parts that `pivot` makes of a set of components. -/
structure Pivot (α : Type) where
  before : List α
  after : List α
  flexible : List α

namespace SCCDAG

variable (d : SCCDAG α)

def orderedBeforeAny (scc : α) (pivots : List α) : Bool := pivots.any fun p => d.orderedBefore scc p

def orderedAfterAny (pivots : List α) (scc : α) : Bool := pivots.any fun p => d.orderedBefore p scc

def pivot (all pivots : List α) : Pivot α where
  before := all.filter fun scc => d.orderedBeforeAny scc pivots
  after := all.filter fun scc => !d.orderedBeforeAny scc pivots && d.orderedAfterAny pivots scc
  flexible := all.filter fun scc =>
    !d.orderedBeforeAny scc pivots && !d.orderedAfterAny pivots scc

def isParallel (scc : α) : Bool :=
  (d.inner scc).all fun e => !(e.outgoingInternal && e.incomingInternal && e.loopCarried)

/-- `LoopCarriedBetweenSCCs`: the incoming edges of the first component are looked at, then its
outgoing edges. -/
def loopCarriedBetweenSCCs (scc1 scc2 : α) : Bool :=
  (d.edges.any fun e => e.incoming = scc1 && e.outgoing = scc2 && e.loopCarried) ||
    d.edges.any fun e => e.outgoing = scc1 && e.incoming = scc2 && e.loopCarried

/-- The pairs that `non_mergeable` adds for two sets of components. -/
def nonMergeable (A B : List α) : List (ℕ × ℕ) :=
  A.flatMap fun a => B.map fun b => (d.getSCCIndex a, d.getSCCIndex b)

def rule1 (good bad : List α) : List (ℕ × ℕ) :=
  bad.flatMap fun s => d.nonMergeable (d.pivot good [s]).before (d.pivot good [s]).after

/-- The pairs of rule 2: a pair that is not compatible is between them. -/
def rule2 (incompat : α → α → Bool) (good : List α) : List (ℕ × ℕ) :=
  good.flatMap fun scc1 => good.flatMap fun scc2 =>
    if incompat scc1 scc2 then
      d.nonMergeable ((d.pivot good [scc1]).before ++ [scc1]) ((d.pivot good [scc2]).after ++ [scc2])
    else []

/-- The two edges of a good component, with a weight proportional to its profile weight. -/
def goodEdges (weight : α → UInt64) (scc : α) : List (ℕ × ℕ × UInt64) :=
  [(Graph.source, Graph.left (d.getSCCIndex scc), 1 + 100 * weight scc),
    (Graph.right (d.getSCCIndex scc), Graph.sink, 1 + 100 * weight scc)]

def flowNetwork (weight : α → UInt64) (incompat : α → α → Bool) (good bad : List α) :
    Graph.Network :=
  Graph.Network.ofEdges (good.flatMap (d.goodEdges weight) ++
    (d.rule1 good bad ++ d.rule2 incompat good).map fun p =>
      (Graph.left p.1, Graph.right p.2, Graph.infinity))

/-- `findMaxGoodStage`: the chosen components and the others, or `none` if the code returns false. -/
def findMaxGoodStage (fuel : ℕ) (all : List α) (weight : α → UInt64) (pred : α → Bool)
    (incompat : α → α → Bool) : Except Unit (Option (List α × List α)) := do
  let good := all.filter pred
  let bad := all.filter fun scc => !pred scc
  if good.length < 1 then return none
  let minCut ← Graph.computeMinCut fuel (d.flowNetwork weight incompat good bad)
  let goodSCCs := good.filter fun scc =>
    decide (Graph.left (d.getSCCIndex scc) ∉ minCut) &&
      decide (Graph.right (d.getSCCIndex scc) ∉ minCut)
  if goodSCCs.isEmpty then return none
  return some (goodSCCs, all.filter fun scc => scc ∉ goodSCCs)

def findMaxParallelStage (fuel : ℕ) (weight : α → UInt64) :
    Except Unit (Option (List α × List α)) :=
  d.findMaxGoodStage fuel d.nodes weight d.isParallel d.loopCarriedBetweenSCCs

end SCCDAG

end Cpf.Pipeline
