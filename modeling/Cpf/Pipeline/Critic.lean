import Cpf.Basics.Loop
import Cpf.Pipeline.StageBuilding
import Cpf.Pipeline.Strategy

/-!
# The criticisms of a pipeline

`PSDSWPCritic::getCriticisms` builds the stages for the dependences that no remedy removes, moves
some instructions, and then lists the dependences that the pipeline does not respect. A failed
assertion ends it with an error.
-/

namespace Cpf.Pipeline

structure PDG (I E : Type) where
  edges : List E
  src : E → I
  dst : E → I
  isLoopCarriedDependence : E → Bool
  isControlDependence : E → Bool
  isMemoryDependence : E → Bool
  isRAWDependence : E → Bool
  isRemovableDependence : E → Bool

/-- What the critic reads of the program and of the performance estimator: the instructions of the
loop; the order in which sets of instructions are traversed; how the weight of an instruction is
added to a sum; the weight of the parallel stage; the test that a sum is more than ten percent of that
weight; and whether `REPORT_DUMP` evaluates its argument. -/
structure LoopInfo (I : Type) where
  loop : Finset I
  order : Finset I → List I
  mem_order : ∀ s i, i ∈ order s ↔ i ∈ s
  mayWriteToMemory : I → Bool
  addWeight : UInt64 → I → UInt64
  getParallelStageWeight : List (PipelineStage I) → UInt64
  exceeds : UInt64 → UInt64 → Bool
  reportDump : Bool

variable {I E : Type} [DecidableEq I] [DecidableEq E]

def SCCStage.toStage {α : Type} (insts : α → Finset I) (s : SCCStage α) : PipelineStage I where
  type := s.type
  replicated := ∅
  instructions := s.sccs.foldr (fun scc all => insts scc ∪ all) ∅
  parallelFactor := s.parallelFactor

def characterizeFrom : List (PipelineStage I) → ℕ → Option ℕ → Option ℕ
  | [], _, parallelStage => parallelStage
  | s :: rest, i, parallelStage =>
      if s.type ≠ .parallel then parallelStage else characterizeFrom rest (i + 1) (some i)

def characterizeStages : List (PipelineStage I) → Option ℕ
  | [] => none
  | s :: rest => characterizeFrom rest 1 (if s.type = .parallel then some 0 else none)

namespace PDG

variable (pdg : PDG I E)

/-- The instructions that `adjustForRegLCFromSeqToPar` moves: those with a register dependence from
another iteration that cannot be removed. -/
def moveToSeqInsts (parallelStage : PipelineStage I) : Finset I :=
  parallelStage.instructions.filter fun inst => pdg.edges.any fun e =>
    decide (pdg.dst e = inst) && pdg.isLoopCarriedDependence e && !pdg.isControlDependence e &&
      !pdg.isMemoryDependence e && pdg.isRAWDependence e && !pdg.isRemovableDependence e

end PDG

namespace LoopInfo

variable (info : LoopInfo I)

/-- The loop of `convertRepLightFirstSeqToRepPrefix` over the instructions of the first stage. -/
def repLight (parallelStageWeight : UInt64) : List I → UInt64 → Bool
  | [], _ => true
  | inst :: insts, seqStageWeight =>
      let seqStageWeight := info.addWeight seqStageWeight inst
      if info.mayWriteToMemory inst then false
      else if info.exceeds seqStageWeight parallelStageWeight then false
      else repLight parallelStageWeight insts seqStageWeight

/-- `adjustPipeline`, with `adjustForRegLCFromSeqToPar` and `convertRepLightFirstSeqToRepPrefix`. -/
def adjustPipeline (pdg : PDG I E) (parallelStageWeight : UInt64) (stages : List (PipelineStage I)) :
    List (PipelineStage I) :=
  match stages, characterizeStages stages with
  | first :: _, some k =>
      if first.type = .sequential then
        let moved := ((stages[k]?).map pdg.moveToSeqInsts).getD ∅
        let seqInsts := first.instructions ∪ moved
        let stages := (stages.modify k fun p => { p with instructions := p.instructions \ moved }).modify 0
          fun s => { s with instructions := seqInsts }
        if info.repLight parallelStageWeight (info.order seqInsts) 0 then
          ((stages.modify k fun p => { p with replicated := p.replicated ∪ seqInsts }).tail).modify 0
            fun p => { p with parallelFactor := p.parallelFactor + 1 }
        else stages
      else stages
  | _, _ => stages

end LoopInfo

namespace PDG

variable (pdg : PDG I E)

/-- The loops of the two tests: every edge that violates the property is a criticism, and it has to
be removable. -/
def criticize (violates : E → Bool) (criticisms : Finset E) : Except Unit (Finset E) :=
  pdg.edges.foldlM (fun criticisms e =>
    if violates e then
      if pdg.isRemovableDependence e then .ok (insert e criticisms) else .error ()
    else .ok criticisms) criticisms

def critForPipelineProperty (earlyStage lateStage : PipelineStage I) :
    Finset E → Except Unit (Finset E) :=
  pdg.criticize fun e => decide (pdg.src e ∈ lateStage.allInsts) &&
    decide (pdg.dst e ∈ earlyStage.allInsts)

def critForParallelStageProperty (parallel : PipelineStage I) : Finset E → Except Unit (Finset E) :=
  pdg.criticize fun e => decide (pdg.src e ∈ parallel.instructions) &&
    decide (pdg.dst e ∈ parallel.allInsts) && pdg.isLoopCarriedDependence e

def critForPairs : List (PipelineStage I) → Finset E → Except Unit (Finset E)
  | [], criticisms => .ok criticisms
  | earlier :: later, criticisms => do
      let criticisms ← later.foldlM
        (fun criticisms late => pdg.critForPipelineProperty earlier late criticisms) criticisms
      critForPairs later criticisms

def populateCriticisms (stages : List (PipelineStage I)) (criticisms : Finset E) :
    Except Unit (Finset E) := do
  let criticisms ← pdg.critForPairs stages criticisms
  stages.foldlM (fun criticisms s =>
    if s.type ≠ .parallel then .ok criticisms else pdg.critForParallelStageProperty s criticisms)
    criticisms

end PDG

/-- The assertions of `assertConsistentWithIR` on instructions of the loop: none is in two stages or
both in a stage and in a replicated prefix, and each is in the pipeline. -/
def assertConsistentWithIR (loop : Finset I) (stages : List (PipelineStage I)) : Except Unit Unit :=
  if stages.Pairwise (fun s t => s.instructions ∩ t.instructions = ∅) ∧
      (∀ s ∈ stages, ∀ t ∈ stages, s.replicated ∩ t.instructions = ∅) ∧
      loop ⊆ pipelineInsts stages then .ok ()
  else .error ()

def expandLater : List (PipelineStage I) → List (PipelineStage I)
  | [] => []
  | s :: rest =>
      let rest := expandLater rest
      if s.type = .replicable then
        if rest.any fun t => t.type ≠ .replicable then
          s :: rest.map fun t => if t.type = .replicable then t else
            { t with replicated := t.replicated ∪ s.instructions }
        else { s with type := .sequential } :: rest
      else s :: rest

def expandReplicatedStages (stages : List (PipelineStage I)) : List (PipelineStage I) :=
  (expandLater stages).filter fun s => s.type ≠ .replicable

/-- The assertion of `print_txt`, which `dump_pipeline` calls for each stage. -/
def dumpPipeline (stages : List (PipelineStage I)) : Except Unit Unit :=
  if ∀ s ∈ stages, s.type = .parallel → 1 < s.parallelFactor then .ok () else .error ()

/-- `PSDSWPCritic::getCriticisms`: the stages and the criticisms, or `none` if the critic is not
applicable. The components and their instructions are those of the graph without removable
dependences. -/
def psdswpGetCriticisms {α : Type} [DecidableEq α] (fuel : ℕ) (info : LoopInfo I) (pdg : PDG I E)
    (sccdag : SCCDAG α) (insts : α → Finset I) (weight : α → UInt64) (threadBudget : UInt32) :
    Except Unit (Option (List (PipelineStage I) × Finset E)) := do
  match ← sccdag.doallAndPipeline fuel weight threadBudget true with
  | none => return none
  | some sccStages =>
      let stages := sccStages.map (SCCStage.toStage insts)
      let stages := info.adjustPipeline pdg (info.getParallelStageWeight stages) stages
      let _ ← pdg.populateCriticisms stages ∅
      let criticisms ← pdg.populateCriticisms stages ∅
      assertConsistentWithIR info.loop stages
      let expanded := expandReplicatedStages stages
      if expanded.length ≠ stages.length then assertConsistentWithIR info.loop expanded
      if info.reportDump then dumpPipeline expanded
      return some (expanded, criticisms)

end Cpf.Pipeline
