import Cpf.Basics.Iterate
import Cpf.CodeGen.StageCode
import Cpf.Pipeline.Strategy
import Mathlib.Data.Finset.Image
import Mathlib.Data.List.MinMax

/-!
# The study of the stages

Before code generation every stage is filled out: with the branches that control what is in it, with values
that it can compute itself, and with values that an earlier stage sends. The three steps are repeated until
none has anything to do.
-/

namespace Cpf.CodeGen

open Pipeline

universe u

variable {β ι : Type u} {E : Type*} [DecidableEq β] [DecidableEq ι]

/-- What the study asks about the instructions of a loop. `insts` lists them in the order of the sets;
`operands` are those that are instructions. The weights are the performance estimates. `isCall` holds of calls
and invokes, and `begin` is the position at which the iteration over a hash map begins. -/
structure LoopIR (β ι : Type*) extends Loop β ι where
  insts : List ι
  parent : ι → β
  operands : ι → List ι
  mayReadOrWriteMemory : ι → Bool
  isLoad : ι → Bool
  isCall : ι → Bool
  relativeWeight : ι → ℕ
  instructionTypeWeight : ι → ℕ
  begin : List ι → ℕ

structure Study (β ι : Type*) where
  insts : Finset ι
  avail : Finset ι
  rel : Finset β
  cons : ι → Option (ℕ × Bool)

inductive Failure
  | assertion
  | fuel
  deriving DecidableEq

structure BackSlice (ι : Type*) where
  cost : ℚ
  rematInsts : Finset ι
  commLoads : Finset ι

namespace LoopIR

variable (L : LoopIR β ι)

def addInstToStage (s : Study β ι) (i : ι) : Study β ι :=
  { s with insts := insert i s.insts, avail := insert i s.avail, rel := insert (L.parent i) s.rel }

def addInstsToStage (s : Study β ι) (is : Finset ι) : Study β ι :=
  { s with insts := is ∪ s.insts, avail := is ∪ s.avail, rel := is.image L.parent ∪ s.rel }

def addCommunication (s : Study β ι) (srcStage : ℕ) (value : ι) (inReplicated : Bool) : Study β ι :=
  { s with
    cons := Function.update s.cons value (some (srcStage, inReplicated))
    avail := insert value s.avail
    rel := insert (L.parent value) s.rel }

/-- `gatherLiveIns`, as far as the live-ins are instructions. -/
def liveIns : Finset ι := ((L.insts.flatMap L.operands).filter (· ∉ L.insts)).toFinset

/-! ### Control dependences -/

/-- One dependence; the flag says whether something has changed. -/
def handleControlDep (isControlDependence : E → Bool) (acc : Bool × Study β ι)
    (dep : CrossStageDependence ι E) :
    Bool × Study β ι :=
  if isControlDependence dep.edge = true ∧ (dep.dst ∈ acc.2.insts ∨ (acc.2.cons dep.dst).isSome) ∧
    dep.src ∉ acc.2.insts
  then (true, L.addInstToStage acc.2 dep.src)
  else acc

def handleControlDeps (isControlDependence : E → Bool) (xdeps : List (CrossStageDependence ι E))
    (s : Study β ι) :
    Bool × Study β ι :=
  xdeps.foldl (L.handleControlDep isControlDependence) (false, s)

/-! ### Rematerialisation -/

/-- The instructions of the stage in the order of the set. -/
def members (s : Study β ι) : List ι := L.insts.filter (· ∈ s.insts)

def canRematerialize (stage : PipelineStage ι) (s : Study β ι) (operand : ι) : Bool :=
  decide (operand ∉ s.avail) && !L.mayReadOrWriteMemory operand &&
    (L.operands operand).all (fun i => decide (i ∈ s.avail)) &&
    !(decide (stage.type = .parallel) && L.isPhi operand && decide (L.parent operand = L.header))

def rematerializeOnce (stage : PipelineStage ι) (s : Study β ι) : Option (Study β ι) :=
  ((((L.members s).filter (· ∉ stage.replicated)).flatMap L.operands).find? (L.canRematerialize stage s)).map
    (L.addInstToStage s)

def rematerialize (stage : PipelineStage ι) (s : Study β ι) : Except Failure (Study β ι) :=
  iterate .fuel (fun s => .ok (L.rematerializeOnce stage s)) (L.insts.length + 1) s

/-- Adds an instruction to the back slice; `none` when the slice cannot be rematerialised or costs more than
`limit`. -/
def addToSlice (limit : ℚ) (i : ι) (slice : BackSlice ι) : Option (BackSlice ι) :=
  let slice := if L.isLoad i then { slice with commLoads := insert i slice.commLoads }
    else { slice with rematInsts := insert i slice.rematInsts }
  if L.mayReadOrWriteMemory i && !L.isLoad i || L.isCall i then none
  else
    let cost := slice.cost + if L.isLoad i then 5 * (L.relativeWeight i : ℚ) else L.relativeWeight i
    if limit < cost then none else some { slice with cost := cost }

/-- The fuel bounds the depth of the recursion. -/
def rematerializeBackSliceRec (avail : Finset ι) (limit : ℚ) :
    ℕ → ι → BackSlice ι → Except Failure (Option (BackSlice ι))
  | 0, _, _ => .error .fuel
  | fuel + 1, i, slice =>
      if i ∈ avail ∨ i ∈ slice.rematInsts ∨ i ∈ slice.commLoads then .ok (some slice)
      else
        match L.addToSlice limit i slice with
        | none => .ok none
        | some slice =>
            (L.operands i).foldlM (fun slice operand => match slice with
              | none => .ok none
              | some slice => rematerializeBackSliceRec avail limit fuel operand slice) (some slice)

def estimatedCostOfComm (i : ι) : ℚ := 5 * 200 * L.relativeWeight i / L.instructionTypeWeight i

/-- The back slice of a value and its cost, when it is cheaper than the value's communication. -/
def rematerializeBackSliceInsteadOfComm (s : Study β ι) (i : ι) : Except Failure (Option (BackSlice ι)) := do
  let slice ← L.rematerializeBackSliceRec s.avail (L.estimatedCostOfComm i) (L.insts.length + 1) i ⟨0, ∅, ∅⟩
  return slice.map fun slice => { slice with cost := slice.cost / L.estimatedCostOfComm i }

/-! ### Communication -/

def communicateValue (available : List (Finset ι)) (inReplicated : Bool) (s : Study β ι) (operand : ι) :
    Except Failure (Study β ι) :=
  match available.findIdx? (operand ∈ ·) with
  | none => .error .assertion
  | some sourceStage => .ok (L.addCommunication s sourceStage operand inReplicated)

/-- The operands that are used but not available, each with whether a replicated instruction uses it there. -/
def unavailable (stage : PipelineStage ι) (s : Study β ι) : List (ι × Bool) :=
  (L.members s).flatMap fun i =>
    ((L.operands i).filter (· ∉ s.avail)).map fun operand => (operand, decide (i ∈ stage.replicated))

def flagOf (uses : List (ι × Bool)) (operand : ι) :
    Bool := uses.any fun use => decide (use.1 = operand) && use.2

/-- Sorts an operand that does not access memory into those that can be rematerialised and the others. -/
def sortOperand (stage : PipelineStage ι) (s : Study β ι) (acc : List (ℚ × ι) × List (ι × Bool))
    (use : ι × Bool) :
    Except Failure (List (ℚ × ι) × List (ι × Bool)) :=
  if stage.type = .sequential then do
    match ← L.rematerializeBackSliceInsteadOfComm s use.1 with
    | some slice => return (acc.1 ++ [(slice.cost, use.1)], acc.2)
    | none => return (acc.1, acc.2 ++ [use])
  else .ok (acc.1, acc.2 ++ [use])

def communicateOnce (stage : PipelineStage ι) (available : List (Finset ι)) (s : Study β ι) :
    Except Failure (Option (Study β ι)) :=
  let uses := L.unavailable stage s
  let mem := uses.filter fun use => L.mayReadOrWriteMemory use.1
  if mem ≠ [] then do
    let s ← (mem.map Prod.fst).dedup.foldlM (fun s operand => L.communicateValue available
        (flagOf mem operand) s operand) s
    return some s
  else do
    let (rematerializable, others) ← uses.foldlM (L.sortOperand stage s) ([], [])
    match rematerializable.argmin Prod.fst with
    | some (_, inst) =>
        match ← L.rematerializeBackSliceInsteadOfComm s inst with
        | none => return none
        | some slice =>
            let s ← (L.insts.filter (· ∈ slice.commLoads)).foldlM (L.communicateValue available false)
              (L.addInstsToStage s slice.rematInsts)
            return some s
    | none =>
        let keys := (others.map Prod.fst).dedup
        match keys[L.begin keys % keys.length]? with
        | none => return none
        | some operand =>
            let s ← L.communicateValue available (flagOf others operand) s operand
            return some s

/-! ### A stage, and all stages -/

variable (isControlDependence : E → Bool) (xdeps : List (CrossStageDependence ι E))

/-- One round of `fillOutStage`; `none` when no step has changed anything. -/
def fillOutRound (stage : PipelineStage ι) (available : List (Finset ι)) (s : Study β ι) :
    Except Failure (Option (Study β ι)) :=
  if (L.handleControlDeps isControlDependence xdeps s).1 then
    .ok (some (L.handleControlDeps isControlDependence xdeps s).2)
  else do
    let t ← L.rematerialize stage s
    if (L.rematerializeOnce stage s).isSome then return some t
    else L.communicateOnce stage available t

def start (stage : PipelineStage ι) : Study β ι :=
  let own := L.addInstsToStage ⟨∅, ∅, ∅, fun _ => none⟩ stage.instructions
  let all := L.addInstsToStage own stage.replicated
  { all with avail := all.avail ∪ L.liveIns }

def study (stage : PipelineStage ι) (available : List (Finset ι)) : Except Failure (Study β ι) :=
  if stage.type = .replicable then .error .assertion
  else do
    let s ← iterate .fuel (L.fillOutRound isControlDependence xdeps stage available)
      (2 * L.insts.length + 1) (L.start stage)
    if s.insts = ∅ ∨ s.rel = ∅ then .error .assertion else return s

/-- Exits of sequential stages are replicated in the parallel stages after them. -/
def forceExits (exiting : List ι) : Finset ι → List (PipelineStage ι) → List (PipelineStage ι)
  | _, [] => []
  | seen, stage :: stages =>
      (if stage.type = .parallel then { stage with replicated := stage.replicated ∪ seen } else stage) ::
        forceExits exiting
          (if stage.type = .sequential then seen ∪
            (exiting.filter (· ∈ stage.instructions)).toFinset else seen) stages

/-- The stages, studied one after another; each sees what is available in those before it. -/
def studyAll : List (Study β ι) → List (PipelineStage ι) → Except Failure (List (Study β ι))
  | done, [] => .ok done
  | done, stage :: stages => do
      let s ← L.study isControlDependence xdeps stage (done.map Study.avail)
      studyAll (done ++ [s]) stages

/-- `computeProducesAndQueues` for the stage with the given number. -/
def addProduces (produces : ℕ → ι → List (ℕ × Bool)) (stageno : ℕ) (s : Study β ι) : ℕ → ι → List (ℕ × Bool) :=
  fun srcStage i =>
    match s.cons i with
    | some (src, inReplicated) =>
        if src = srcStage then produces srcStage i ++ [(stageno, inReplicated)] else produces srcStage i
    | none => produces srcStage i

def producesOf (studies : List (Study β ι)) : ℕ → ι → List (ℕ × Bool) :=
  studies.zipIdx.foldl (fun produces study => addProduces produces study.2 study.1) fun _ _ => []

def exitingTerminators : List ι :=
  (L.blocks.filter fun b => (L.succs b).any fun c => decide (c ∉ L.blocks)).map L.terminator

def plansOf (studies : List (Study β ι)) : List (StagePlan β ι) :=
  studies.zipIdx.map fun study => ⟨study.1.insts, study.1.cons, producesOf studies study.2, study.1.rel⟩

def prepare (stages : List (PipelineStage ι)) : Except Failure (List (StagePlan β ι)) := do
  let studies ← L.studyAll isControlDependence xdeps [] (forceExits L.exitingTerminators ∅ stages)
  return plansOf studies

end LoopIR

end Cpf.CodeGen
