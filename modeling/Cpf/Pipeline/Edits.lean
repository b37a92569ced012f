import Cpf.Basics.Trans
import Cpf.Pipeline.Strategy

/-!
# Sequences of edits

Every edit changes the set of pipeline instructions by exactly the instruction it is called with,
and keeps the stages disjoint. The dependence lists do not follow as well: `replaceInstruction`
does not look at the memory flows, and `deleteInstruction` removes control dependences by their
destination only. An edit keeps a consistent strategy consistent exactly when no dependence that
it leaves behind names the instruction that goes away.
-/

namespace Cpf.Pipeline

variable {I E : Type*} [DecidableEq I] {isControlDependence : E → Bool}

inductive Edit (I : Type*)
  | add (newInst : I) (gravity : Option I) (forceReplication : Bool)
  | replace (newInst oldInst : I)
  | delete (inst : I)

namespace Edit

def apply (isControlDependence : E → Bool) (ps : PipelineStrategy I E) :
    Edit I → PipelineStrategy I E
  | add newInst gravity forceReplication =>
      ps.addInstruction isControlDependence newInst gravity forceReplication
  | replace newInst oldInst => ps.replaceInstruction newInst oldInst
  | delete inst => ps.deleteInstruction isControlDependence inst

/-- A new instruction is not in the pipeline, except that `gravity` may be added itself. -/
def Fresh (ps : PipelineStrategy I E) : Edit I → Prop
  | add newInst gravity _ => gravity = some newInst ∨ newInst ∉ ps.insts
  | replace newInst _ => newInst ∉ ps.insts
  | delete _ => True

/-- No dependence is left that names the instruction which goes away. -/
def Safe (isControlDependence : E → Bool) (ps : PipelineStrategy I E) : Edit I → Prop
  | add _ _ _ => True
  | replace _ oldInst => ∀ flow ∈ ps.crossStageMemFlows, flow.src ≠ oldInst ∧ flow.dst ≠ oldInst
  | delete inst =>
      (∀ dep ∈ ps.crossStageDeps, dep.src = inst ∨ dep.dst = inst →
        isControlDependence dep.edge = true ∧ dep.dst = inst) ∧
      ∀ flow ∈ ps.crossStageMemFlows, flow.src ≠ inst ∧ flow.dst ≠ inst

instance (ps : PipelineStrategy I E) : (e : Edit I) → Decidable (e.Fresh ps)
  | add newInst gravity _ => inferInstanceAs (Decidable (gravity = some newInst ∨ newInst ∉ ps.insts))
  | replace newInst _ => inferInstanceAs (Decidable (newInst ∉ ps.insts))
  | delete _ => instDecidableTrue

instance (ps : PipelineStrategy I E) : (e : Edit I) → Decidable (e.Safe isControlDependence ps)
  | add _ _ _ => instDecidableTrue
  | replace _ oldInst => inferInstanceAs
      (Decidable (∀ flow ∈ ps.crossStageMemFlows, flow.src ≠ oldInst ∧ flow.dst ≠ oldInst))
  | delete inst => inferInstanceAs (Decidable (
      (∀ dep ∈ ps.crossStageDeps, dep.src = inst ∨ dep.dst = inst →
        isControlDependence dep.edge = true ∧ dep.dst = inst) ∧
      ∀ flow ∈ ps.crossStageMemFlows, flow.src ≠ inst ∧ flow.dst ≠ inst))

/-- The pipeline's instructions after the edit. -/
def change (all : Finset I) : Edit I → Finset I
  | add _ none _ => all
  | add newInst (some gravity) _ => if gravity ∈ all then insert newInst all else all
  | replace newInst oldInst => if oldInst ∈ all then insert newInst (all.erase oldInst) else all
  | delete inst => all.erase inst

end Edit

section Stages

variable {stages : List (PipelineStage I)} {F : PipelineStage I → PipelineStage I}

omit [DecidableEq I] in
theorem StagesOk.eq_or_disjoint (h : StagesOk stages) :
    ∀ a ∈ stages, ∀ b ∈ stages, a = b ∨ Disjoint a.instructions b.instructions := by
  intro a ha b hb
  have hsymm : Std.Symm (fun a b : PipelineStage I => Disjoint a.instructions b.instructions) :=
    ⟨fun _ _ hxy => hxy.symm⟩
  by_cases hab : a = b
  · exact Or.inl hab
  · exact Or.inr (h.disjoint.forall ha hb hab)

omit [DecidableEq I] in
theorem StagesOk.map (h : StagesOk stages)
    (hF : ∀ a ∈ stages, ∀ b ∈ stages, Disjoint a.instructions b.instructions →
      Disjoint (F a).instructions (F b).instructions)
    (hF' : ∀ a ∈ stages, ∀ b ∈ stages, a = b ∨ Disjoint a.instructions b.instructions →
      Disjoint (F a).instructions (F b).replicated) :
    StagesOk (stages.map F) where
  disjoint := by
    rw [List.pairwise_map]
    exact h.disjoint.imp_of_mem (fun ha hb => hF _ ha _ hb)
  notReplicated := by
    simp only [List.mem_map]
    rintro _ ⟨a, ha, rfl⟩ _ ⟨b, hb, rfl⟩
    exact hF' a ha b hb (h.eq_or_disjoint a ha b hb)

/-- What the search makes of the set of pipeline instructions, from what it makes of each stage. -/
theorem mem_pipelineInsts_map {i : I} :
    i ∈ pipelineInsts (stages.map F) ↔
      ∃ stage ∈ stages, i ∈ (F stage).instructions ∨ i ∈ (F stage).replicated := by
  simp

end Stages

section Edits

variable {ps : PipelineStrategy I E} (h : StagesOk ps.stages)
include h

theorem stagesOk_addInstruction {newInst gravity : I} {forceReplication : Bool}
    (hfresh : some gravity = some newInst ∨ newInst ∉ ps.insts) :
    StagesOk (ps.addInstruction isControlDependence newInst (some gravity) forceReplication).stages := by
  have hnew : gravity = newInst ∨
      ∀ a ∈ ps.stages, newInst ∉ a.instructions ∧ newInst ∉ a.replicated := by
    simpa [PipelineStrategy.insts] using hfresh
  rw [PipelineStrategy.addInstruction, editStages_eq_map h]
  apply h.map
  · intro a ha b hb hab
    have hba := h.notReplicated b hb a ha
    have hab' := h.notReplicated a ha b hb
    rw [Finset.disjoint_left] at *
    simp only [editStage, PipelineStage.addNear, PipelineStage.insertReplicated]
    grind
  · intro a ha b hb hab
    have hba := h.notReplicated b hb a ha
    have hab' := h.notReplicated a ha b hb
    rw [Finset.disjoint_left] at *
    simp only [editStage, PipelineStage.addNear, PipelineStage.insertReplicated]
    grind

theorem stagesOk_replaceInstruction {newInst oldInst : I} (hfresh : newInst ∉ ps.insts) :
    StagesOk (ps.replaceInstruction newInst oldInst).stages := by
  have hnew : ∀ a ∈ ps.stages, newInst ∉ a.instructions ∧ newInst ∉ a.replicated := by
    simpa [PipelineStrategy.insts] using hfresh
  rw [PipelineStrategy.replaceInstruction, editStages_eq_map h]
  apply h.map
  · intro a ha b hb hab
    rw [Finset.disjoint_left] at *
    simp only [editStage]
    grind
  · intro a ha b hb hab
    have hba := h.notReplicated b hb a ha
    have hab' := h.notReplicated a ha b hb
    rw [Finset.disjoint_left] at *
    simp only [editStage]
    grind

theorem stagesOk_deleteInstruction {inst : I} :
    StagesOk (ps.deleteInstruction isControlDependence inst).stages := by
  rw [PipelineStrategy.deleteInstruction, editStages_eq_map h]
  apply h.map
  · intro a ha b hb hab
    rw [Finset.disjoint_left] at *
    simp only [editStage]
    grind
  · intro a ha b hb _
    have hab' := h.notReplicated a ha b hb
    rw [Finset.disjoint_left] at *
    simp only [editStage]
    grind

omit h in
theorem mem_editStage_add {newInst gravity i : I} {forceReplication : Bool}
    (stage : PipelineStage I) :
    (i ∈ (editStage gravity (·.insertReplicated newInst)
        (·.addNear newInst gravity forceReplication) stage).instructions ∨
      i ∈ (editStage gravity (·.insertReplicated newInst)
        (·.addNear newInst gravity forceReplication) stage).replicated) ↔
    (i ∈ stage.instructions ∨ i ∈ stage.replicated) ∨
      i = newInst ∧ (gravity ∈ stage.instructions ∨ gravity ∈ stage.replicated) := by
  simp only [editStage, PipelineStage.addNear, PipelineStage.insertReplicated]
  grind

theorem insts_addInstruction {newInst gravity : I} {forceReplication : Bool} :
    (ps.addInstruction isControlDependence newInst (some gravity) forceReplication).insts =
      if gravity ∈ ps.insts then insert newInst ps.insts else ps.insts := by
  ext i
  rw [PipelineStrategy.insts, PipelineStrategy.addInstruction, editStages_eq_map h,
    mem_pipelineInsts_map]
  simp only [mem_editStage_add]
  have hsplit : (i ∈ if gravity ∈ ps.insts then insert newInst ps.insts else ps.insts) ↔
      i ∈ ps.insts ∨ i = newInst ∧ gravity ∈ ps.insts := by
    grind
  rw [hsplit, PipelineStrategy.insts, mem_pipelineInsts, mem_pipelineInsts]
  grind

theorem insts_replaceInstruction {newInst oldInst : I} :
    (ps.replaceInstruction newInst oldInst).insts =
      if oldInst ∈ ps.insts then insert newInst (ps.insts.erase oldInst) else ps.insts := by
  ext i
  have hstage : ∀ stage ∈ ps.stages, Disjoint stage.instructions stage.replicated :=
    fun stage hs => h.notReplicated stage hs stage hs
  rw [PipelineStrategy.insts, PipelineStrategy.replaceInstruction, editStages_eq_map h,
    mem_pipelineInsts_map]
  have hsplit : (i ∈ if oldInst ∈ ps.insts then insert newInst (ps.insts.erase oldInst)
        else ps.insts) ↔
      (i ≠ oldInst ∧ i ∈ ps.insts) ∨ i = newInst ∧ oldInst ∈ ps.insts := by
    grind
  rw [hsplit, PipelineStrategy.insts, mem_pipelineInsts, mem_pipelineInsts]
  simp only [Finset.disjoint_left, editStage] at *
  grind

theorem insts_deleteInstruction {inst : I} :
    (ps.deleteInstruction isControlDependence inst).insts = ps.insts.erase inst := by
  ext i
  have hstage : ∀ stage ∈ ps.stages, Disjoint stage.instructions stage.replicated :=
    fun stage hs => h.notReplicated stage hs stage hs
  rw [PipelineStrategy.insts, PipelineStrategy.deleteInstruction, editStages_eq_map h,
    mem_pipelineInsts_map, Finset.mem_erase, PipelineStrategy.insts, mem_pipelineInsts]
  simp only [Finset.disjoint_left, editStage] at *
  grind

end Edits

section Deps

variable {ps : PipelineStrategy I E}

omit [DecidableEq I] in
theorem DepsInside.mono {all all' : Finset I} {deps : List (CrossStageDependence I E)}
    (h : DepsInside all deps) (hsub : all ⊆ all') : DepsInside all' deps :=
  fun dep hdep => ⟨hsub (h dep hdep).1, hsub (h dep hdep).2⟩

/-- Dependences stay inside when an instruction goes away that none of them names. -/
theorem depsInside_erase_iff {all : Finset I} {deps : List (CrossStageDependence I E)}
    (h : DepsInside all deps) {inst : I} :
    DepsInside (all.erase inst) deps ↔ ∀ dep ∈ deps, dep.src ≠ inst ∧ dep.dst ≠ inst := by
  constructor
  · intro hin dep hdep
    exact ⟨Finset.ne_of_mem_erase (hin dep hdep).1, Finset.ne_of_mem_erase (hin dep hdep).2⟩
  · intro hne dep hdep
    exact ⟨Finset.mem_erase.2 ⟨(hne dep hdep).1, (h dep hdep).1⟩,
      Finset.mem_erase.2 ⟨(hne dep hdep).2, (h dep hdep).2⟩⟩

theorem consistent_addInstruction (h : ps.Consistent) {newInst : I} {gravity : Option I}
    {forceReplication : Bool} (hfresh : gravity = some newInst ∨ newInst ∉ ps.insts) :
    (ps.addInstruction isControlDependence newInst gravity forceReplication).Consistent := by
  cases gravity with
  | none => exact h
  | some gravity =>
      have hinsts : (ps.addInstruction isControlDependence newInst (some gravity)
          forceReplication).insts = if gravity ∈ ps.insts then insert newInst ps.insts else ps.insts :=
        insts_addInstruction h.stages
      have hsub : ps.insts ⊆ (ps.addInstruction isControlDependence newInst (some gravity)
          forceReplication).insts := by
        rw [hinsts]
        split_ifs
        · exact Finset.subset_insert newInst ps.insts
        · exact Finset.Subset.refl _
      constructor
      · exact stagesOk_addInstruction h.stages hfresh
      · intro dep hdep
        have hdep' : dep ∈ ps.crossStageDeps ∨ ∃ d ∈ ps.crossStageDeps,
            d.dst = gravity ∧ dep = ⟨d.src, newInst, d.edge⟩ := by
          simp only [PipelineStrategy.addInstruction] at hdep
          grind
        obtain hold | ⟨d, hd, hdst, rfl⟩ := hdep'
        · exact h.deps.mono hsub dep hold
        · have hg : gravity ∈ ps.insts := hdst ▸ (h.deps d hd).2
          refine ⟨hsub (h.deps d hd).1, ?_⟩
          rw [hinsts, if_pos hg]
          exact Finset.mem_insert_self newInst ps.insts
      · exact h.memFlows.mono hsub

theorem consistent_replaceInstruction_iff (h : ps.Consistent) {newInst oldInst : I}
    (hfresh : newInst ∉ ps.insts) :
    (ps.replaceInstruction newInst oldInst).Consistent ↔
      ∀ flow ∈ ps.crossStageMemFlows, flow.src ≠ oldInst ∧ flow.dst ≠ oldInst := by
  by_cases hold : oldInst ∈ ps.insts
  · have hinsts : (ps.replaceInstruction newInst oldInst).insts =
        insert newInst (ps.insts.erase oldInst) := by
      rw [insts_replaceInstruction h.stages, if_pos hold]
    have hne : oldInst ≠ newInst := fun he => hfresh (he ▸ hold)
    constructor
    · intro hc flow hflow
      have hin := hc.memFlows flow hflow
      rw [hinsts] at hin
      grind
    · intro hsafe
      constructor
      · exact stagesOk_replaceInstruction h.stages hfresh
      · intro dep hdep
        obtain ⟨d, hd, rfl⟩ := List.mem_map.1 hdep
        have hin := h.deps d hd
        rw [hinsts]
        grind
      · have herase := (depsInside_erase_iff h.memFlows).2 hsafe
        rw [hinsts]
        exact herase.mono (Finset.subset_insert _ _)
  · have hsafe : ∀ flow ∈ ps.crossStageMemFlows, flow.src ≠ oldInst ∧ flow.dst ≠ oldInst :=
      fun flow hflow => ⟨fun he => hold (he ▸ (h.memFlows flow hflow).1),
        fun he => hold (he ▸ (h.memFlows flow hflow).2)⟩
    have hinsts : (ps.replaceInstruction newInst oldInst).insts = ps.insts := by
      rw [insts_replaceInstruction h.stages, if_neg hold]
    constructor
    · exact fun _ => hsafe
    · intro _
      constructor
      · exact stagesOk_replaceInstruction h.stages hfresh
      · intro dep hdep
        obtain ⟨d, hd, rfl⟩ := List.mem_map.1 hdep
        have hin := h.deps d hd
        rw [hinsts]
        grind
      · rw [hinsts]
        exact h.memFlows

theorem consistent_deleteInstruction_iff (h : ps.Consistent) {inst : I} :
    (ps.deleteInstruction isControlDependence inst).Consistent ↔
      (∀ dep ∈ ps.crossStageDeps, dep.src = inst ∨ dep.dst = inst →
        isControlDependence dep.edge = true ∧ dep.dst = inst) ∧
      ∀ flow ∈ ps.crossStageMemFlows, flow.src ≠ inst ∧ flow.dst ≠ inst := by
  have hinsts : (ps.deleteInstruction isControlDependence inst).insts = ps.insts.erase inst :=
    insts_deleteInstruction h.stages
  have hmem : ∀ dep, dep ∈ (ps.deleteInstruction isControlDependence inst).crossStageDeps ↔
      dep ∈ ps.crossStageDeps ∧ ¬ (isControlDependence dep.edge = true ∧ dep.dst = inst) := by
    intro dep
    rw [PipelineStrategy.deleteInstruction, List.mem_filter]
    grind
  have hkept : DepsInside ps.insts
      (ps.deleteInstruction isControlDependence inst).crossStageDeps :=
    fun dep hdep => h.deps dep ((hmem dep).1 hdep).1
  constructor
  · intro hc
    have hdeps := hc.deps
    rw [hinsts, depsInside_erase_iff hkept] at hdeps
    have hflows := hc.memFlows
    rw [hinsts] at hflows
    refine ⟨?_, (depsInside_erase_iff h.memFlows).1 hflows⟩
    intro dep hdep hnamed
    by_contra hleft
    have hne := hdeps dep ((hmem dep).2 ⟨hdep, hleft⟩)
    exact hnamed.elim hne.1 hne.2
  · rintro ⟨hdeps, hflows⟩
    constructor
    · exact stagesOk_deleteInstruction h.stages
    · rw [hinsts, depsInside_erase_iff hkept]
      intro dep hdep
      obtain ⟨hin, hleft⟩ := (hmem dep).1 hdep
      exact ⟨fun he => hleft (hdeps dep hin (Or.inl he)), fun he => hleft (hdeps dep hin (Or.inr he))⟩
    · rw [hinsts]
      exact (depsInside_erase_iff h.memFlows).2 hflows

/-- An edit keeps a strategy consistent exactly when it is safe. -/
theorem consistent_apply_iff (h : ps.Consistent) {e : Edit I} (hfresh : e.Fresh ps) :
    (e.apply isControlDependence ps).Consistent ↔ e.Safe isControlDependence ps := by
  cases e with
  | add newInst gravity forceReplication =>
      exact iff_of_true (consistent_addInstruction h hfresh) trivial
  | replace newInst oldInst => exact consistent_replaceInstruction_iff h hfresh
  | delete inst => exact consistent_deleteInstruction_iff h

theorem insts_apply (h : ps.Consistent) (e : Edit I) :
    (e.apply isControlDependence ps).insts = e.change ps.insts := by
  cases e with
  | add newInst gravity forceReplication =>
      cases gravity with
      | none => rfl
      | some gravity => exact insts_addInstruction h.stages
  | replace newInst oldInst => exact insts_replaceInstruction h.stages
  | delete inst => exact insts_deleteInstruction h.stages

end Deps

/-- In every sequence of safe edits the strategy stays consistent; and in every state reached, an
edit changes the set of pipeline instructions by its own instruction only, and keeps the strategy
consistent exactly when it is safe. -/
theorem edits_keep_consistent {s t : PipelineStrategy I E} (hs : s.Consistent)
    (hrun : Run (fun ps (e : Edit I) => some (e.apply isControlDependence ps))
      (fun ps e => e.Fresh ps ∧ e.Safe isControlDependence ps) s t) :
    t.Consistent ∧ ∀ e : Edit I, e.Fresh t →
      (e.apply isControlDependence t).insts = e.change t.insts ∧
      ((e.apply isControlDependence t).Consistent ↔ e.Safe isControlDependence t) := by
  have ht : t.Consistent := by
    apply Run.invariant _ hs _ hrun
    rintro ps e _ hps ⟨hfresh, hsafe⟩ ⟨⟩
    exact (consistent_apply_iff hps hfresh).2 hsafe
  exact ⟨ht, fun e he => ⟨insts_apply ht e, consistent_apply_iff ht he⟩⟩

/-- A branch `0` in a sequential stage that controls `1` in a parallel stage; the edge of a
dependence says whether it is a control dependence. -/
def branchAndUse (memFlows : List (CrossStageDependence ℕ Bool)) : PipelineStrategy ℕ Bool where
  stages := [⟨.sequential, ∅, {0}, 1⟩, ⟨.parallel, ∅, {1}, 2⟩]
  crossStageDeps := [⟨0, 1, true⟩]
  crossStageMemFlows := memFlows

theorem branchAndUse_consistent {memFlows : List (CrossStageDependence ℕ Bool)}
    (h : memFlows = [] ∨ memFlows = [⟨0, 1, false⟩]) : (branchAndUse memFlows).Consistent := by
  constructor
  · exact ⟨by simp [branchAndUse], by simp [branchAndUse]⟩
  · simp [DepsInside, branchAndUse, PipelineStrategy.insts]
  · obtain rfl | rfl := h
    · simp [DepsInside, branchAndUse]
    · simp [DepsInside, branchAndUse, PipelineStrategy.insts]

/-- A check is added to the replicated prefix next to `1`, then `1` is replaced, then deleted. -/
theorem edits_keep_consistent_addReplaceDelete :
    ∃ t : PipelineStrategy ℕ Bool,
      Run (fun ps (e : Edit ℕ) => some (e.apply id ps)) (fun ps e => e.Fresh ps ∧ e.Safe id ps)
        (branchAndUse []) t ∧ t.insts = {0, 2} ∧ t.Consistent := by
  have hrun : Run (fun ps (e : Edit ℕ) => some (e.apply id ps))
      (fun ps e => e.Fresh ps ∧ e.Safe id ps) (branchAndUse [])
      ((Edit.delete 3).apply id ((Edit.replace 3 1).apply id
        ((Edit.add 2 (some 1) true).apply id (branchAndUse [])))) := by
    apply Run.tail (Run.tail (Run.tail Run.refl _ rfl) _ rfl) _ rfl
    · decide
    · decide
    · decide
  exact ⟨_, hrun, by decide, (edits_keep_consistent (branchAndUse_consistent (Or.inl rfl)) hrun).1⟩

/-- Replacing the source of a memory flow, and deleting the branch that a control dependence starts
at, both leave a dependence that names an instruction outside the pipeline. -/
theorem edits_leave_dependences :
    (branchAndUse [⟨0, 1, false⟩]).Consistent ∧
    (Edit.replace 2 0 : Edit ℕ).Fresh (branchAndUse [⟨0, 1, false⟩]) ∧
    ¬ ((Edit.replace 2 0).apply id (branchAndUse [⟨0, 1, false⟩])).Consistent ∧
    (branchAndUse []).Consistent ∧ (Edit.delete 0 : Edit ℕ).Fresh (branchAndUse []) ∧
    ¬ ((Edit.delete 0).apply id (branchAndUse [])).Consistent := by
  refine ⟨branchAndUse_consistent (Or.inr rfl), by decide, ?_, branchAndUse_consistent (Or.inl rfl),
    by decide, ?_⟩
  · intro h
    have hsrc := (h.memFlows ⟨0, 1, false⟩ List.mem_cons_self).1
    revert hsrc
    decide
  · intro h
    have hsrc := (h.deps ⟨0, 1, true⟩ (by decide)).1
    revert hsrc
    decide

end Cpf.Pipeline
