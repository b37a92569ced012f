import Cpf.Pipeline.Critic
import Cpf.Pipeline.StagePartition

/-!
# Which dependences are criticised

The criticisms are the dependences that lead back in the pipeline and the loop-carried ones that
start at an instruction of the parallel stage and stay in the stage. A first stage that becomes a
replicated prefix is no longer a stage of its own: a dependence of one iteration that leads from
the parallel stage to its prefix is then not looked at.
-/

namespace Cpf.Pipeline

variable {I E : Type} [DecidableEq I] [DecidableEq E]

namespace PDG

variable {pdg : PDG I E} {stages : List (PipelineStage I)} {criticisms criticisms' : Finset E}

def Backward (pdg : PDG I E) (stages : List (PipelineStage I)) (e : E) : Prop :=
  ∃ early late, [early, late].Sublist stages ∧ pdg.src e ∈ late.allInsts ∧
    pdg.dst e ∈ early.allInsts

/-- The dependences that a pipeline does not respect: those that lead back, and in the parallel stage
the loop-carried ones and those that lead to the replicated prefix. -/
def Violated (pdg : PDG I E) (stages : List (PipelineStage I)) (e : E) : Prop :=
  pdg.Backward stages e ∨ ∃ s ∈ stages, s.type = .parallel ∧ pdg.src e ∈ s.instructions ∧
    ((pdg.dst e ∈ s.instructions ∧ pdg.isLoopCarriedDependence e) ∨ pdg.dst e ∈ s.replicated)

omit [DecidableEq I] in
theorem criticize_spec {violates : E → Bool}
    (h : pdg.criticize violates criticisms = .ok criticisms') :
    (∀ e, e ∈ criticisms' ↔ e ∈ criticisms ∨ e ∈ pdg.edges ∧ violates e) ∧
      ∀ e ∈ pdg.edges, violates e → pdg.isRemovableDependence e := by
  rw [criticize] at h
  revert h
  induction pdg.edges generalizing criticisms with
  | nil =>
      intro h
      cases h
      simp
  | cons a edges ih =>
      intro h
      obtain ⟨c, hc, hrest⟩ := foldlM_cons_eq_ok.1 h
      obtain ⟨hmem, hrem⟩ := ih hrest
      split_ifs at hc with hviol hremovable
      · cases hc
        constructor
        · intro e
          rw [hmem, Finset.mem_insert, List.mem_cons]
          constructor
          · rintro ((rfl | hold) | ⟨he, hv⟩)
            · exact Or.inr ⟨Or.inl rfl, hviol⟩
            · exact Or.inl hold
            · exact Or.inr ⟨Or.inr he, hv⟩
          · rintro (hold | ⟨rfl | he, hv⟩)
            · exact Or.inl (Or.inr hold)
            · exact Or.inl (Or.inl rfl)
            · exact Or.inr ⟨he, hv⟩
        · intro e he hv
          rcases List.mem_cons.1 he with rfl | he
          · exact hremovable
          · exact hrem e he hv
      · cases hc
        constructor
        · intro e
          rw [hmem, List.mem_cons]
          constructor
          · rintro (hold | ⟨he, hv⟩)
            · exact Or.inl hold
            · exact Or.inr ⟨Or.inr he, hv⟩
          · rintro (hold | ⟨rfl | he, hv⟩)
            · exact Or.inl hold
            · exact absurd hv hviol
            · exact Or.inr ⟨he, hv⟩
        · intro e he hv
          rcases List.mem_cons.1 he with rfl | he
          · exact absurd hv hviol
          · exact hrem e he hv

omit [DecidableEq I] [DecidableEq E] in
theorem mem_foldlM {add : PipelineStage I → Finset E → Except Unit (Finset E)}
    {new : PipelineStage I → E → Prop}
    (hadd : ∀ s ∈ stages, ∀ c c', add s c = .ok c' → ∀ e, e ∈ c' ↔ e ∈ c ∨ new s e)
    (h : stages.foldlM (fun c s => add s c) criticisms = .ok criticisms') (e : E) :
    e ∈ criticisms' ↔ e ∈ criticisms ∨ ∃ s ∈ stages, new s e := by
  induction stages generalizing criticisms with
  | nil =>
      cases h
      simp
  | cons s stages ih =>
      obtain ⟨c, hc, hrest⟩ := foldlM_cons_eq_ok.1 h
      rw [ih (fun t ht => hadd t (List.mem_cons_of_mem _ ht)) hrest,
        hadd s List.mem_cons_self _ _ hc, List.exists_mem_cons_iff, or_assoc]

omit [DecidableEq E] in
theorem backward_cons {s : PipelineStage I} {e : E} :
    pdg.Backward (s :: stages) e ↔
      (∃ late ∈ stages, pdg.src e ∈ late.allInsts ∧ pdg.dst e ∈ s.allInsts) ∨
        pdg.Backward stages e := by
  constructor
  · rintro ⟨early, late, hsub, hsrc, hdst⟩
    rcases List.sublist_cons_iff.1 hsub with hsub | ⟨r, heq, hsub⟩
    · exact Or.inr ⟨early, late, hsub, hsrc, hdst⟩
    · cases heq
      exact Or.inl ⟨late, List.singleton_sublist.1 hsub, hsrc, hdst⟩
  · rintro (⟨late, hlate, hsrc, hdst⟩ | ⟨early, late, hsub, hsrc, hdst⟩)
    · exact ⟨s, late, List.Sublist.cons_cons _ (List.singleton_sublist.2 hlate), hsrc, hdst⟩
    · exact ⟨early, late, List.Sublist.cons _ hsub, hsrc, hdst⟩

theorem mem_critForPipelineProperty {early late : PipelineStage I}
    (h : pdg.critForPipelineProperty early late criticisms = .ok criticisms') (e : E) :
    e ∈ criticisms' ↔ e ∈ criticisms ∨
      e ∈ pdg.edges ∧ pdg.src e ∈ late.allInsts ∧ pdg.dst e ∈ early.allInsts := by
  rw [(criticize_spec h).1]
  simp only [Bool.and_eq_true, decide_eq_true_eq]

theorem mem_critForPairs (h : pdg.critForPairs stages criticisms = .ok criticisms') (e : E) :
    e ∈ criticisms' ↔ e ∈ criticisms ∨ e ∈ pdg.edges ∧ pdg.Backward stages e := by
  induction stages generalizing criticisms with
  | nil =>
      cases h
      have hnot : ¬ pdg.Backward [] e := by
        rintro ⟨early, late, hsub, -⟩
        cases hsub
      simp [hnot]
  | cons s stages ih =>
      obtain ⟨c, hc, hrest⟩ := bind_eq_ok.1 h
      rw [ih hrest, backward_cons,
        mem_foldlM (fun late _ c c' hc e => mem_critForPipelineProperty hc e) hc]
      constructor
      · rintro ((hold | ⟨late, hlate, he, hv⟩) | ⟨he, hv⟩)
        · exact Or.inl hold
        · exact Or.inr ⟨he, Or.inl ⟨late, hlate, hv⟩⟩
        · exact Or.inr ⟨he, Or.inr hv⟩
      · rintro (hold | ⟨he, ⟨late, hlate, hv⟩ | hv⟩)
        · exact Or.inl (Or.inl hold)
        · exact Or.inl (Or.inr ⟨late, hlate, he, hv⟩)
        · exact Or.inr ⟨he, hv⟩

theorem mem_populateCriticisms (h : pdg.populateCriticisms stages ∅ = .ok criticisms') (e : E) :
    e ∈ criticisms' ↔ e ∈ pdg.edges ∧ (pdg.Backward stages e ∨ ∃ s ∈ stages, s.type = .parallel ∧
      pdg.src e ∈ s.instructions ∧ pdg.dst e ∈ s.allInsts ∧ pdg.isLoopCarriedDependence e) := by
  obtain ⟨c, hc, hrest⟩ := bind_eq_ok.1 h
  have hadd : ∀ s ∈ stages, ∀ c c', (if s.type ≠ .parallel then .ok c
      else pdg.critForParallelStageProperty s c) = .ok c' → ∀ e, e ∈ c' ↔ e ∈ c ∨
      (e ∈ pdg.edges ∧ s.type = .parallel ∧ pdg.src e ∈ s.instructions ∧
        pdg.dst e ∈ s.allInsts ∧ pdg.isLoopCarriedDependence e) := by
    intro s _ c c' hc e
    split_ifs at hc with htype
    · cases hc
      simp [htype]
    · rw [(criticize_spec hc).1]
      simp [not_not.1 htype, and_assoc]
  rw [mem_foldlM hadd hrest, mem_critForPairs hc]
  constructor
  · rintro ((hold | ⟨he, hv⟩) | ⟨s, hs, he, hv⟩)
    · exact absurd hold (Finset.notMem_empty e)
    · exact ⟨he, Or.inl hv⟩
    · exact ⟨he, Or.inr ⟨s, hs, hv⟩⟩
  · rintro ⟨he, hv | ⟨s, hs, hv⟩⟩
    · exact Or.inl (Or.inr ⟨he, hv⟩)
    · exact Or.inr ⟨s, hs, he, hv⟩

end PDG

/-! ### The stages after the adjustments -/

section Adjust

variable {info : LoopInfo I} {pdg : PDG I E} {w : UInt64} {first par : PipelineStage I}
  {rest : List (PipelineStage I)}

/-- The instructions of the first stage after `adjustForRegLCFromSeqToPar`. -/
def seqInsts (pdg : PDG I E) (first par : PipelineStage I) : Finset I :=
  first.instructions ∪ pdg.moveToSeqInsts par

omit [DecidableEq I] in
theorem characterizeStages_cons (hpar : par.type = .parallel) (hrest : ∀ s ∈ rest, s.type ≠ .parallel) :
    characterizeStages (first :: par :: rest) = some 1 := by
  cases rest with
  | nil => simp [characterizeStages, characterizeFrom, hpar]
  | cons s rest =>
      have hs := hrest s List.mem_cons_self
      simp [characterizeStages, characterizeFrom, hpar, hs]

omit [DecidableEq E] in
/-- A first stage that is light and writes no memory becomes the prefix of the parallel stage; another
one stays. -/
theorem adjustPipeline_cons (hfirst : first.type = .sequential) (hpar : par.type = .parallel)
    (hrest : ∀ s ∈ rest, s.type ≠ .parallel) :
    info.adjustPipeline pdg w (first :: par :: rest) =
      if info.repLight w (info.order (seqInsts pdg first par)) 0 then
        { par with
          instructions := par.instructions \ pdg.moveToSeqInsts par
          replicated := par.replicated ∪ seqInsts pdg first par
          parallelFactor := par.parallelFactor + 1 } :: rest
      else
        { first with instructions := seqInsts pdg first par } ::
          { par with instructions := par.instructions \ pdg.moveToSeqInsts par } :: rest := by
  simp only [LoopInfo.adjustPipeline, characterizeStages_cons hpar hrest, if_pos hfirst]
  rfl

omit [DecidableEq E] in
theorem adjustPipeline_parallel (hpar : par.type = .parallel) :
    info.adjustPipeline pdg w (par :: rest) = par :: rest := by
  have hne : ¬ par.type = .sequential := by
    rw [hpar]
    decide
  cases hk : characterizeStages (par :: rest) with
  | none => simp only [LoopInfo.adjustPipeline, hk]
  | some k => simp only [LoopInfo.adjustPipeline, hk, if_neg hne]

theorem expandReplicatedStages_eq {stages : List (PipelineStage I)}
    (h : ∀ s ∈ stages, s.type ≠ .replicable) : expandReplicatedStages stages = stages := by
  have hlater : expandLater stages = stages := by
    induction stages with
    | nil => rfl
    | cons s stages ih =>
        rw [expandLater, ih fun t ht => h t (List.mem_cons_of_mem _ ht),
          if_neg (h s List.mem_cons_self)]
  rw [expandReplicatedStages, hlater, List.filter_eq_self]
  intro s hs
  simpa using h s hs

end Adjust

/-! ### The result -/

section Result

variable {info : LoopInfo I} {pdg : PDG I E} {stages : List (PipelineStage I)} {criticisms : Finset E}

/-- If the first stage becomes a prefix, every dependence from what stays in the parallel stage to it
is loop-carried. -/
def PrefixRespected (info : LoopInfo I) (pdg : PDG I E) (w : UInt64) :
    List (PipelineStage I) → Prop
  | first :: par :: _ => first.type = .sequential →
      info.repLight w (info.order (seqInsts pdg first par)) 0 = true → ∀ e ∈ pdg.edges,
        pdg.src e ∈ par.instructions \ pdg.moveToSeqInsts par →
        pdg.dst e ∈ seqInsts pdg first par → pdg.isLoopCarriedDependence e
  | _ => True

/-- Without prefixes every dependence that is not respected is a criticism. -/
theorem complete_of_no_prefix (hpop : pdg.populateCriticisms stages ∅ = .ok criticisms)
    (hrep : ∀ s ∈ stages, s.type = .parallel → s.replicated = ∅) :
    ∀ e ∈ pdg.edges, pdg.Violated stages e → e ∈ criticisms := by
  intro e he hv
  rw [PDG.mem_populateCriticisms hpop]
  refine ⟨he, ?_⟩
  rcases hv with hback | ⟨s, hs, htype, hsrc, ⟨hdst, hlc⟩ | hdst⟩
  · exact Or.inl hback
  · exact Or.inr ⟨s, hs, htype, hsrc, Finset.mem_union_left _ hdst, hlc⟩
  · rw [hrep s hs htype] at hdst
    exact absurd hdst (Finset.notMem_empty _)

theorem complete_iff_of_front {par : PipelineStage I} {rest : List (PipelineStage I)}
    (hpop : pdg.populateCriticisms (par :: rest) ∅ = .ok criticisms) (hpar : par.type = .parallel)
    (hrest : ∀ s ∈ rest, s.type ≠ .parallel ∧ s.replicated = ∅)
    (hdisj : (par :: rest).Pairwise fun s t => s.instructions ∩ t.instructions = ∅) :
    (∀ e ∈ pdg.edges, pdg.Violated (par :: rest) e → e ∈ criticisms) ↔
      ∀ e ∈ pdg.edges, pdg.src e ∈ par.instructions → pdg.dst e ∈ par.replicated →
        pdg.isLoopCarriedDependence e := by
  constructor
  · intro hall e he hsrc hdst
    have hcrit := hall e he (Or.inr ⟨par, List.mem_cons_self, hpar, hsrc, Or.inr hdst⟩)
    rcases ((PDG.mem_populateCriticisms hpop e).1 hcrit).2 with hback | ⟨s, hs, -, -, -, hlc⟩
    · -- The source is in the first stage only, so the dependence does not lead back.
      obtain ⟨early, late, hsub, hlate, -⟩ := hback
      have hmem : late ∈ rest := by
        rcases List.sublist_cons_iff.1 hsub with hsub | ⟨r, heq, hsub⟩
        · exact hsub.subset (List.mem_cons_of_mem _ List.mem_cons_self)
        · cases heq
          exact List.singleton_sublist.1 hsub
      rw [PipelineStage.allInsts, (hrest late hmem).2, Finset.union_empty] at hlate
      have hempty := (List.pairwise_cons.1 hdisj).1 late hmem
      exact absurd (hempty ▸ Finset.mem_inter.2 ⟨hsrc, hlate⟩) (Finset.notMem_empty _)
    · exact hlc
  · intro hall e he hv
    rw [PDG.mem_populateCriticisms hpop]
    refine ⟨he, ?_⟩
    rcases hv with hback | ⟨s, hs, htype, hsrc, ⟨hdst, hlc⟩ | hdst⟩
    · exact Or.inl hback
    · exact Or.inr ⟨s, hs, htype, hsrc, Finset.mem_union_left _ hdst, hlc⟩
    · rcases List.mem_cons.1 hs with rfl | hs
      · exact Or.inr ⟨s, List.mem_cons_self, htype, hsrc, Finset.mem_union_right _ hdst,
          hall e he hsrc hdst⟩
      · exact absurd htype (hrest s hs).1

theorem aroundParallel_cases {α : Type} (insts : α → Finset I) {sccStages : List (SCCStage α)}
    (h : SCCDAG.AroundParallel sccStages) :
    (∃ par rest, sccStages.map (SCCStage.toStage insts) = par :: rest ∧ par.type = .parallel ∧
      par.replicated = ∅ ∧ ∀ s ∈ rest, s.type = .sequential ∧ s.replicated = ∅) ∨
    ∃ first par rest, sccStages.map (SCCStage.toStage insts) = first :: par :: rest ∧
      first.type = .sequential ∧ first.replicated = ∅ ∧ par.type = .parallel ∧
      par.replicated = ∅ ∧ ∀ s ∈ rest, s.type = .sequential ∧ s.replicated = ∅ := by
  obtain ⟨before, parallel, after, rfl, hpar, hbefore, -, hseq⟩ := h
  have hafter : ∀ s ∈ after.map (SCCStage.toStage insts), s.type = .sequential ∧ s.replicated = ∅ := by
    intro s hs
    obtain ⟨t, ht, rfl⟩ := List.mem_map.1 hs
    exact ⟨hseq t (List.mem_append_right _ ht), rfl⟩
  match before, hbefore with
  | [], _ => exact Or.inl ⟨_, _, rfl, hpar, rfl, hafter⟩
  | [first], _ =>
      exact Or.inr ⟨_, _, _, rfl, hseq first List.mem_cons_self, rfl, hpar, rfl, hafter⟩

variable {α : Type} [DecidableEq α]

omit [DecidableEq I] in
theorem dumpPipeline_eq_ok {u : Unit} : dumpPipeline stages = .ok u ↔
    ∀ s ∈ stages, s.type = .parallel → 1 < s.parallelFactor := by
  rw [dumpPipeline]
  split_ifs with hok
  · exact iff_of_true rfl hok
  · exact iff_of_false (fun h => by cases h) hok

theorem psdswpGetCriticisms_spec {fuel : ℕ} {sccdag : SCCDAG α} {insts : α → Finset I}
    {weight : α → UInt64} {threadBudget : UInt32} {sccStages : List (SCCStage α)}
    (hsccs : sccdag.doallAndPipeline fuel weight threadBudget true = .ok (some sccStages))
    (h : psdswpGetCriticisms fuel info pdg sccdag insts weight threadBudget =
      .ok (some (stages, criticisms))) :
    let adjusted := info.adjustPipeline pdg
      (info.getParallelStageWeight (sccStages.map (SCCStage.toStage insts)))
      (sccStages.map (SCCStage.toStage insts))
    stages = expandReplicatedStages adjusted ∧ pdg.populateCriticisms adjusted ∅ = .ok criticisms ∧
      (adjusted.Pairwise fun s t => s.instructions ∩ t.instructions = ∅) ∧
      (info.reportDump = true → ∀ s ∈ stages, s.type = .parallel → 1 < s.parallelFactor) := by
  obtain ⟨r, hr, h⟩ := bind_eq_ok.1 h
  rw [hsccs] at hr
  cases hr
  obtain ⟨c, -, h⟩ := bind_eq_ok.1 h
  obtain ⟨c', hpop, h⟩ := bind_eq_ok.1 h
  obtain ⟨u, hassert, h⟩ := bind_eq_ok.1 h
  have hpair : (info.adjustPipeline pdg
      (info.getParallelStageWeight (sccStages.map (SCCStage.toStage insts)))
      (sccStages.map (SCCStage.toStage insts))).Pairwise
        fun s t => s.instructions ∩ t.instructions = ∅ := by
    rw [assertConsistentWithIR] at hassert
    split_ifs at hassert with hok
    exact hok.1
  simp only at h
  split_ifs at h with hlength hreport hreport
  · obtain ⟨u', -, h⟩ := bind_eq_ok.1 h
    obtain ⟨u'', hdump, h⟩ := bind_eq_ok.1 h
    cases h
    exact ⟨rfl, hpop, hpair, fun _ => dumpPipeline_eq_ok.1 hdump⟩
  · obtain ⟨u', -, h⟩ := bind_eq_ok.1 h
    cases h
    exact ⟨rfl, hpop, hpair, fun h => absurd h hreport⟩
  · obtain ⟨u'', hdump, h⟩ := bind_eq_ok.1 h
    cases h
    exact ⟨rfl, hpop, hpair, fun _ => dumpPipeline_eq_ok.1 hdump⟩
  · cases h
    exact ⟨rfl, hpop, hpair, fun h => absurd h hreport⟩

omit [DecidableEq E] [DecidableEq α] in
theorem adjusted_not_replicable {insts : α → Finset I} {sccStages : List (SCCStage α)} {w : UInt64}
    (h : SCCDAG.AroundParallel sccStages) :
    ∀ s ∈ info.adjustPipeline pdg w (sccStages.map (SCCStage.toStage insts)), s.type ≠ .replicable := by
  have hpar' : ∀ {s : PipelineStage I}, s.type = .parallel → s.type ≠ .replicable := by
    intro s hs
    rw [hs]
    decide
  have hseq' : ∀ {s : PipelineStage I}, s.type = .sequential → s.type ≠ .replicable := by
    intro s hs
    rw [hs]
    decide
  rcases aroundParallel_cases insts h with
    ⟨par, rest, heq, hpar, -, hrest⟩ | ⟨first, par, rest, heq, hfirst, -, hpar, -, hrest⟩
  · rw [heq, adjustPipeline_parallel hpar]
    intro s hs
    rcases List.mem_cons.1 hs with rfl | hs
    · exact hpar' hpar
    · exact hseq' (hrest s hs).1
  · have hrest' : ∀ s ∈ rest, s.type ≠ .parallel := by
      intro s hs
      rw [(hrest s hs).1]
      decide
    rw [heq, adjustPipeline_cons hfirst hpar hrest']
    intro s hs
    split_ifs at hs
    · rcases List.mem_cons.1 hs with rfl | hs
      · exact hpar' hpar
      · exact hseq' (hrest s hs).1
    · rcases List.mem_cons.1 hs with rfl | hs
      · exact hseq' hfirst
      · rcases List.mem_cons.1 hs with rfl | hs
        · exact hpar' hpar
        · exact hseq' (hrest s hs).1

/-- Every dependence that the returned pipeline does not respect is a criticism if and only if no
dependence within an iteration leads from the parallel stage to a first stage that becomes its
prefix. -/
theorem criticisms_complete_iff (fuel : ℕ) (info : LoopInfo I) (pdg : PDG I E) (sccdag : SCCDAG α)
    (insts : α → Finset I) (weight : α → UInt64) (threadBudget : UInt32)
    (sccStages : List (SCCStage α)) (stages : List (PipelineStage I)) (criticisms : Finset E)
    (hsccs : sccdag.doallAndPipeline fuel weight threadBudget true = .ok (some sccStages))
    (h : psdswpGetCriticisms fuel info pdg sccdag insts weight threadBudget =
      .ok (some (stages, criticisms))) :
    (∀ e ∈ pdg.edges, pdg.Violated stages e → e ∈ criticisms) ↔
      PrefixRespected info pdg
        (info.getParallelStageWeight (sccStages.map (SCCStage.toStage insts)))
        (sccStages.map (SCCStage.toStage insts)) := by
  obtain ⟨hstages, hpop, hdisj, -⟩ := psdswpGetCriticisms_spec hsccs h
  have haround := (SCCDAG.doallAndPipeline_spec hsccs).1
  rw [expandReplicatedStages_eq (adjusted_not_replicable haround)] at hstages
  rw [← hstages] at hpop hdisj
  generalize info.getParallelStageWeight (sccStages.map (SCCStage.toStage insts)) = w at hstages ⊢
  rcases aroundParallel_cases insts haround with
    ⟨par, rest, heq, hpar, hrep, hrest⟩ | ⟨first, par, rest, heq, hfirst, hrepF, hpar, hrepP, hrest⟩
  · rw [heq, adjustPipeline_parallel hpar] at hstages
    subst hstages
    rw [heq]
    have hcomplete := complete_of_no_prefix hpop (by
      intro s hs htype
      rcases List.mem_cons.1 hs with rfl | hs
      · exact hrep
      · exact (hrest s hs).2)
    refine iff_of_true hcomplete ?_
    cases rest with
    | nil => trivial
    | cons s rest =>
        intro hseq
        rw [hpar] at hseq
        cases hseq
  · have hrest' : ∀ s ∈ rest, s.type ≠ .parallel := by
      intro s hs
      rw [(hrest s hs).1]
      decide
    rw [heq, adjustPipeline_cons hfirst hpar hrest'] at hstages
    rw [heq]
    split_ifs at hstages with hlight
    · subst hstages
      rw [complete_iff_of_front hpop hpar (fun s hs => ⟨hrest' s hs, (hrest s hs).2⟩) hdisj]
      simp only [PrefixRespected, hfirst, hlight, forall_const, hrepP, Finset.empty_union]
    · subst hstages
      have hcomplete := complete_of_no_prefix hpop (by
        intro s hs htype
        rcases List.mem_cons.1 hs with rfl | hs
        · exact hrepF
        · rcases List.mem_cons.1 hs with rfl | hs
          · exact hrepP
          · exact (hrest s hs).2)
      exact iff_of_true hcomplete fun _ htrue => absurd htrue hlight

theorem populateCriticisms_of_result {fuel : ℕ} {sccdag : SCCDAG α} {insts : α → Finset I}
    {weight : α → UInt64} {threadBudget : UInt32}
    (h : psdswpGetCriticisms fuel info pdg sccdag insts weight threadBudget =
      .ok (some (stages, criticisms))) : pdg.populateCriticisms stages ∅ = .ok criticisms := by
  obtain ⟨r, hr, -⟩ := bind_eq_ok.1 h
  cases r with
  | none =>
      rw [psdswpGetCriticisms, hr] at h
      cases h
  | some sccStages =>
      obtain ⟨hstages, hpop, -⟩ := psdswpGetCriticisms_spec hr h
      rw [expandReplicatedStages_eq
        (adjusted_not_replicable (SCCDAG.doallAndPipeline_spec hr).1)] at hstages
      rw [hstages]
      exact hpop

end Result

deriving instance DecidableEq for PipelineStage

/-- The loop `while (p) { p->val = …; p = p->next; }`: the load of the next element is a component with
a loop-carried dependence, and the store to the element depends on it. -/
def listSCCs : SCCDAG (Fin 2) := SCCDAG.twoInARow false fun a => a = 0

/-- Its dependences: the register dependences of the load on itself and of the store on the load, and
a memory dependence of the load on the store that a remedy removes. -/
def listPDG (loopCarried : Bool) : PDG (Fin 2) (Fin 3) where
  edges := [0, 1, 2]
  src e := if e = 2 then 1 else 0
  dst e := if e = 1 then 1 else 0
  isLoopCarriedDependence e := e = 0 || (e = 2 && loopCarried)
  isControlDependence _ := false
  isMemoryDependence e := e = 2
  isRAWDependence _ := true
  isRemovableDependence e := e = 2

def listInfo : LoopInfo (Fin 2) where
  loop := {0, 1}
  order s := (List.finRange 2).filter (· ∈ s)
  mem_order s i := by simp
  mayWriteToMemory i := i = 1
  addWeight w _ := w + 1
  getParallelStageWeight _ := 100
  exceeds w p := p < 10 * w
  reportDump := true

theorem listStages : listSCCs.doallAndPipeline 20 (fun _ => 1) 22 true =
    .ok (some [⟨.sequential, [0], 1⟩, ⟨.parallel, [1], 21⟩]) := by
  decide +kernel

/-- If the dependence of the load on the store is loop-carried, it is a criticism. -/
theorem criticisms_complete_iff_loopCarried :
    psdswpGetCriticisms 20 listInfo (listPDG true) listSCCs (fun a => {a}) (fun _ => 1) 22 =
        .ok (some ([⟨.parallel, {0}, {1}, 22⟩], {2})) ∧
      ∀ e ∈ (listPDG true).edges, (listPDG true).Violated [⟨.parallel, {0}, {1}, 22⟩] e →
        e ∈ ({2} : Finset (Fin 3)) := by
  have hresult : psdswpGetCriticisms 20 listInfo (listPDG true) listSCCs (fun a => {a})
      (fun _ => 1) 22 = .ok (some ([⟨.parallel, {0}, {1}, 22⟩], {2})) := by
    decide +kernel
  refine ⟨hresult, (criticisms_complete_iff _ _ _ _ _ _ _ _ _ _ listStages hresult).2 ?_⟩
  intro _ _ e he hsrc hdst
  revert e
  decide

/-- Within an iteration it is not, although other workers run the load without the store. -/
theorem prefix_dependence_not_criticised :
    psdswpGetCriticisms 20 listInfo (listPDG false) listSCCs (fun a => {a}) (fun _ => 1) 22 =
        .ok (some ([⟨.parallel, {0}, {1}, 22⟩], ∅)) ∧
      (2 : Fin 3) ∈ (listPDG false).edges ∧
      (listPDG false).Violated [⟨.parallel, {0}, {1}, 22⟩] 2 := by
  refine ⟨by decide +kernel, by decide, Or.inr ⟨_, List.mem_cons_self, rfl, ?_, Or.inr ?_⟩⟩
  · decide
  · decide

end Cpf.Pipeline
