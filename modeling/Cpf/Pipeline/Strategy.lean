import Cpf.Pipeline.Allocation
import Mathlib.Data.Finset.Basic

/-!
# Pipeline strategies and their edits

A strategy lists the stages of a pipeline, each with its instructions and its replicated prefix,
and the dependences that span stages. The transforms that run before code generation change the
loop and report every change to the strategy through `addInstruction`, `replaceInstruction` and
`deleteInstruction`.
-/

namespace Cpf.Pipeline

variable {I E : Type*} [DecidableEq I]

structure PipelineStage (I : Type*) where
  type : StageType
  replicated : Finset I
  instructions : Finset I
  parallelFactor : UInt32

structure CrossStageDependence (I E : Type*) where
  src : I
  dst : I
  edge : E
  deriving DecidableEq

structure PipelineStrategy (I E : Type*) where
  stages : List (PipelineStage I)
  crossStageDeps : List (CrossStageDependence I E)
  crossStageMemFlows : List (CrossStageDependence I E)

def PipelineStage.allInsts (stage : PipelineStage I) : Finset I :=
  stage.instructions ∪ stage.replicated

/-- The instructions of the pipeline: those of a stage or of a replicated prefix. -/
def pipelineInsts (stages : List (PipelineStage I)) : Finset I :=
  stages.foldr (fun stage all => stage.allInsts ∪ all) ∅

/-- The search for the stages of `key`: every stage that replicates it is changed by
`onReplicated`, and the first one that has it among its instructions, by `onInstructions`. -/
def editStages (key : I) (onReplicated onInstructions : PipelineStage I → PipelineStage I) :
    List (PipelineStage I) → List (PipelineStage I)
  | [] => []
  | stage :: stages =>
      if key ∈ stage.replicated then
        onReplicated stage :: editStages key onReplicated onInstructions stages
      else if key ∈ stage.instructions then onInstructions stage :: stages
      else stage :: editStages key onReplicated onInstructions stages

def PipelineStage.insertReplicated (newInst : I) (stage : PipelineStage I) : PipelineStage I :=
  { stage with replicated := insert newInst stage.replicated }

def PipelineStage.addNear (newInst gravity : I) (forceReplication : Bool)
    (stage : PipelineStage I) : PipelineStage I :=
  if !forceReplication || decide (stage.type ≠ .parallel) then
    { stage with instructions := insert newInst stage.instructions }
  else
    { stage with
      replicated := insert newInst stage.replicated
      instructions :=
        if gravity = newInst then stage.instructions.erase newInst else stage.instructions }

namespace PipelineStrategy

variable (isControlDependence : E → Bool)

def insts (ps : PipelineStrategy I E) : Finset I := pipelineInsts ps.stages

/-- A null `gravity` is `none`. The dependences that are appended have another destination than
`gravity`, so the loop passes over them. -/
def addInstruction (ps : PipelineStrategy I E) (newInst : I) (gravity : Option I)
    (forceReplication : Bool) : PipelineStrategy I E :=
  match gravity with
  | none => ps
  | some gravity =>
      { ps with
        stages := editStages gravity (·.insertReplicated newInst)
          (·.addNear newInst gravity forceReplication) ps.stages
        crossStageDeps :=
          if gravity = newInst then ps.crossStageDeps
          else ps.crossStageDeps ++
            (ps.crossStageDeps.filter
              (fun dep => isControlDependence dep.edge && decide (dep.dst = gravity))).map
                (fun dep => ⟨dep.src, newInst, dep.edge⟩) }

def replaceInstruction (ps : PipelineStrategy I E) (newInst oldInst : I) : PipelineStrategy I E :=
  { ps with
    stages := editStages oldInst
      (fun stage => { stage with replicated := insert newInst (stage.replicated.erase oldInst) })
      (fun stage => { stage with instructions := insert newInst (stage.instructions.erase oldInst) })
      ps.stages
    crossStageDeps := ps.crossStageDeps.map fun dep =>
      ⟨if oldInst = dep.src then newInst else dep.src, if oldInst = dep.dst then newInst else dep.dst,
        dep.edge⟩ }

def deleteInstruction (ps : PipelineStrategy I E) (inst : I) : PipelineStrategy I E :=
  { ps with
    stages := editStages inst
      (fun stage => { stage with replicated := stage.replicated.erase inst })
      (fun stage => { stage with instructions := stage.instructions.erase inst })
      ps.stages
    crossStageDeps := ps.crossStageDeps.filter
      (fun dep => !(isControlDependence dep.edge && decide (dep.dst = inst))) }

end PipelineStrategy

/-- Checks 1 and 2 of `assertConsistentWithIR`: the stages are disjoint, and no instruction of a
stage is in a replicated prefix. -/
structure StagesOk (stages : List (PipelineStage I)) : Prop where
  disjoint : stages.Pairwise (fun a b => Disjoint a.instructions b.instructions)
  notReplicated : ∀ a ∈ stages, ∀ b ∈ stages, Disjoint a.instructions b.replicated

/-- Check 4: the instructions that a list of dependences names are in the pipeline. -/
def DepsInside (all : Finset I) (deps : List (CrossStageDependence I E)) : Prop :=
  ∀ dep ∈ deps, dep.src ∈ all ∧ dep.dst ∈ all

/-- The invariant of `assertConsistentWithIR`, and the same of the memory flows. -/
structure PipelineStrategy.Consistent (ps : PipelineStrategy I E) : Prop where
  stages : StagesOk ps.stages
  deps : DepsInside ps.insts ps.crossStageDeps
  memFlows : DepsInside ps.insts ps.crossStageMemFlows

@[simp] theorem mem_pipelineInsts {stages : List (PipelineStage I)} {i : I} :
    i ∈ pipelineInsts stages ↔
      ∃ stage ∈ stages, i ∈ stage.instructions ∨ i ∈ stage.replicated := by
  induction stages with
  | nil => simp [pipelineInsts]
  | cons stage stages ih =>
      have hcons : pipelineInsts (stage :: stages) = stage.allInsts ∪ pipelineInsts stages := rfl
      rw [hcons, Finset.mem_union, ih, PipelineStage.allInsts, Finset.mem_union]
      simp

omit [DecidableEq I] in
theorem StagesOk.tail {stage : PipelineStage I} {stages : List (PipelineStage I)}
    (h : StagesOk (stage :: stages)) : StagesOk stages where
  disjoint := (List.pairwise_cons.1 h.disjoint).2
  notReplicated a ha b hb :=
    h.notReplicated a (List.mem_cons_of_mem _ ha) b (List.mem_cons_of_mem _ hb)

def editStage (key : I) (onReplicated onInstructions : PipelineStage I → PipelineStage I)
    (stage : PipelineStage I) : PipelineStage I :=
  if key ∈ stage.replicated then onReplicated stage
  else if key ∈ stage.instructions then onInstructions stage else stage

/-- Where the stages are disjoint, leaving the search early makes no difference: it changes every
stage that has the key. -/
theorem editStages_eq_map {key : I} {onReplicated onInstructions : PipelineStage I → PipelineStage I}
    {stages : List (PipelineStage I)} (h : StagesOk stages) :
    editStages key onReplicated onInstructions stages =
      stages.map (editStage key onReplicated onInstructions) := by
  induction stages with
  | nil => rfl
  | cons stage stages ih =>
      rw [editStages, List.map_cons, ih h.tail, editStage]
      by_cases hr : key ∈ stage.replicated
      · rw [if_pos hr, if_pos hr]
      by_cases hi : key ∈ stage.instructions
      · rw [if_neg hr, if_pos hi, if_neg hr, if_pos hi]
        congr 1
        symm
        calc _ = stages.map id := by
              apply List.map_congr_left
              intro b hb
              have hbr : key ∉ b.replicated := Finset.disjoint_left.1
                (h.notReplicated stage List.mem_cons_self b (List.mem_cons_of_mem _ hb)) hi
              have hbi : key ∉ b.instructions := Finset.disjoint_left.1
                ((List.pairwise_cons.1 h.disjoint).1 b hb) hi
              rw [editStage, if_neg hbr, if_neg hbi, id]
          _ = stages := List.map_id stages
      · rw [if_neg hr, if_neg hi, if_neg hr, if_neg hi]

end Cpf.Pipeline
