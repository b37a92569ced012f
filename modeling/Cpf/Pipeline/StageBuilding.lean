import Cpf.Pipeline.Allocation
import Cpf.Pipeline.GoodStage

/-!
# Building the stages of a pipeline

`doallAndPipeline` puts what comes before and after the parallel stage in a sequential stage each.
The other critic cuts the DAG into sequential stages of about the same weight: it fills one stage
after the other with the heaviest component that has no predecessor left.
-/

namespace Cpf.Pipeline

structure SCCStage (α : Type) where
  type : StageType
  sccs : List α
  parallelFactor : UInt32
  deriving DecidableEq

/-- The arithmetic on doubles that the code uses; nothing is assumed of it. -/
structure DoubleOps (D : Type) where
  zero : D
  minusOne : D
  add : D → D → D
  divUnsigned : D → UInt32 → D
  lt : D → D → Bool
  ofInt : ℤ → D
  toInt : D → ℤ

namespace SCCDAG

variable {α : Type} [DecidableEq α] (d : SCCDAG α)

/-- `pivot` with two parts: what is not ordered with respect to the pivots goes after them, unless
nothing else does. -/
def pivot2 (all pivots : List α) : List α × List α :=
  let p := d.pivot all pivots
  if p.after.isEmpty then (p.before ++ p.flexible, p.after) else (p.before, p.after ++ p.flexible)

def stagesAround (threadBudget : UInt32) (before maxParallel after : List α) : List (SCCStage α) :=
  let threadAvail := if before.isEmpty then threadBudget else threadBudget - 1
  let threadAvail := if after.isEmpty then threadAvail else threadAvail - 1
  (if before.isEmpty then [] else [⟨.sequential, before, 1⟩]) ++
    [⟨.parallel, maxParallel, threadAvail⟩] ++
    (if after.isEmpty then [] else [⟨.sequential, after, 1⟩])

def doallAndPipeline (fuel : ℕ) (weight : α → UInt64) (threadBudget : UInt32)
    (includeParallelStages : Bool) : Except Unit (Option (List (SCCStage α))) :=
  if d.nodes.isEmpty then .ok none
  else if threadBudget = 0 then .error ()
  else if !includeParallelStages then .ok none
  else do
    match ← d.findMaxParallelStage fuel weight with
    | none => return none
    | some (maxParallel, notMaxParallel) =>
        let (before, after) := d.pivot2 notMaxParallel maxParallel
        return some (stagesAround threadBudget before maxParallel after)

def getIncomingCountMap : ℕ → UInt32 :=
  d.nodes.foldl (fun counts scc => Function.update counts (d.getSCCIndex scc)
    (UInt32.ofNat (d.edges.countP fun e => e.incoming = scc))) (fun _ => 0)

/-- One round of the loop of `getNextLargestFreeStandingSCC`. -/
def lookAt {D : Type} (ops : DoubleOps D) (weight : α → D) (counts : ℕ → UInt32)
    (largest : D × Option α) (scc : α) : D × Option α :=
  if counts (d.getSCCIndex scc) ≠ 0 then largest
  else if ops.lt largest.1 (weight scc) then (weight scc, some scc) else largest

def getNextLargestFreeStandingSCC {D : Type} (ops : DoubleOps D) (weight : α → D)
    (counts : ℕ → UInt32) : Option α :=
  (d.nodes.foldl (d.lookAt ops weight counts) (ops.minusOne, none)).2

def updateIncomingCountMap (counts : ℕ → UInt32) (removedScc : α) : ℕ → UInt32 :=
  (d.edges.filter fun e => e.outgoing = removedScc).foldl
    (fun counts e => Function.update counts (d.getSCCIndex e.incoming)
      (counts (d.getSCCIndex e.incoming) - 1))
    (Function.update counts (d.getSCCIndex removedScc) (-1))

structure Filling (α : Type) where
  counts : ℕ → UInt32
  currSccSet : List α
  currWeight : ℤ

def fillStep {D : Type} (ops : DoubleOps D) (weight : α → D) (target : D) (s : Filling α) :
    Except Unit (Option (Filling α)) :=
  if ops.lt (ops.ofInt s.currWeight) target then
    match d.getNextLargestFreeStandingSCC ops weight s.counts with
    | none => .ok none
    | some largestScc => .ok (some
        { counts := d.updateIncomingCountMap s.counts largestScc
          currSccSet := s.currSccSet ++ [largestScc]
          currWeight := ops.toInt (ops.add (ops.ofInt s.currWeight) (weight largestScc)) })
  else .ok none

/-- One round of the loop over the threads; the last stage gets the rest. -/
def addStage {D : Type} (ops : DoubleOps D) (weight : α → D) (target : D) (numThread fuel : ℕ)
    (p : (ℕ → UInt32) × List (List α)) (i : ℕ) : Except Unit ((ℕ → UInt32) × List (List α)) := do
  let s ← iterate () (d.fillStep ops weight target) fuel ⟨p.1, [], 0⟩
  let currSccSet := if i = numThread - 1 then
      s.currSccSet ++ d.nodes.filter fun scc => s.counts (d.getSCCIndex scc) ≠ -1
    else s.currSccSet
  return (s.counts, if currSccSet.isEmpty then p.2 else p.2 ++ [currSccSet])

def partitionStages {D : Type} (ops : DoubleOps D) (weight : α → D) (threadBudget : UInt32)
    (fuel : ℕ) : Except Unit (List (List α)) := do
  let numThread := min threadBudget (UInt32.ofNat d.nodes.length)
  let totalWeight := d.nodes.foldl (fun total scc => ops.add total (weight scc)) ops.zero
  let target := ops.divUnsigned totalWeight numThread
  let p ← (List.range numThread.toNat).foldlM
    (d.addStage ops weight target numThread.toNat fuel) (d.getIncomingCountMap, [])
  return p.2

end SCCDAG

end Cpf.Pipeline
