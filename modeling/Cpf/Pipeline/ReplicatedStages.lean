import Cpf.Pipeline.Critic

/-!
# The expansion of replicable stages

`expandReplicatedStages` merges every replicable stage into all later stages that are not replicable,
from the last to the first, and drops it. A replicable stage without such a stage behind it turns
sequential; that happens to the last stage only, since it then is one for all others.
-/

namespace Cpf.Pipeline

variable {I : Type} [DecidableEq I]

def PipelineStage.addPrefix (insts : Finset I) (s : PipelineStage I) : PipelineStage I :=
  { s with replicated := s.replicated ∪ insts }

/-- The expansion, stage by stage from the first. -/
inductive Expands : List (PipelineStage I) → List (PipelineStage I) → Prop
  | nil : Expands [] []
  | last {s : PipelineStage I} (hs : s.type = .replicable) :
      Expands [s] [{ s with type := .sequential }]
  | keep {s : PipelineStage I} {rest out : List (PipelineStage I)} (hs : s.type ≠ .replicable)
      (hrest : Expands rest out) : Expands (s :: rest) (s :: out)
  | merge {s : PipelineStage I} {rest out : List (PipelineStage I)} (hs : s.type = .replicable)
      (hne : rest ≠ []) (hrest : Expands rest out) :
      Expands (s :: rest) (out.map (PipelineStage.addPrefix s.instructions))

variable {s : PipelineStage I} {rest stages out : List (PipelineStage I)}

/-- Some stage behind is not replicable, unless there is none. -/
theorem any_expandLater (hne : stages ≠ []) :
    ((expandLater stages).any fun t => t.type ≠ .replicable) = true := by
  cases stages with
  | nil => exact absurd rfl hne
  | cons s rest =>
    rw [expandLater]
    by_cases hs : s.type = .replicable
    · by_cases hany : ((expandLater rest).any fun t => t.type ≠ .replicable) = true
      · rw [if_pos hs, if_pos hany, List.any_cons, List.any_map, Bool.or_eq_true]
        refine .inr ?_
        rw [List.any_eq_true] at hany ⊢
        obtain ⟨t, ht, htype⟩ := hany
        refine ⟨t, ht, ?_⟩
        rw [decide_eq_true_iff] at htype
        rw [Function.comp_apply, if_neg htype]
        exact decide_eq_true htype
      · rw [if_pos hs, if_neg hany, List.any_cons, Bool.or_eq_true]
        exact .inl rfl
    · rw [if_neg hs, List.any_cons, Bool.or_eq_true]
      exact .inl (decide_eq_true hs)

theorem expandReplicatedStages_keep (hs : s.type ≠ .replicable) :
    expandReplicatedStages (s :: rest) = s :: expandReplicatedStages rest := by
  rw [expandReplicatedStages, expandLater, if_neg hs, List.filter_cons, if_pos (decide_eq_true hs)]
  rfl

theorem expandReplicatedStages_last (hs : s.type = .replicable) :
    expandReplicatedStages [s] = [{ s with type := .sequential }] := by
  rw [expandReplicatedStages, expandLater, if_pos hs]
  rfl

/-- What is merged into the stages that are kept commutes with dropping the others. -/
theorem expandReplicatedStages_merge (hs : s.type = .replicable) (hne : rest ≠ []) :
    expandReplicatedStages (s :: rest) =
      (expandReplicatedStages rest).map (PipelineStage.addPrefix s.instructions) := by
  rw [expandReplicatedStages, expandLater, if_pos hs, if_pos (any_expandLater hne),
    expandReplicatedStages, List.filter_cons, if_neg (by rw [hs]; decide)]
  induction expandLater rest with
  | nil => rfl
  | cons t ts ih =>
    rw [List.map_cons, List.filter_cons, List.filter_cons, ih]
    by_cases ht : t.type = .replicable
    · have hdrop : ¬ decide (t.type ≠ .replicable) = true := by
        rw [ht]
        decide
      rw [if_pos ht, if_neg hdrop, if_neg hdrop]
    · rw [if_neg ht, if_pos (decide_eq_true ht), if_pos (decide_eq_true ht)]
      rfl

theorem expands_expandReplicatedStages (stages : List (PipelineStage I)) :
    Expands stages (expandReplicatedStages stages) := by
  induction stages with
  | nil => exact .nil
  | cons s rest ih =>
    by_cases hs : s.type = .replicable
    · by_cases hne : rest = []
      · subst hne
        rw [expandReplicatedStages_last hs]
        exact .last hs
      · rw [expandReplicatedStages_merge hs hne]
        exact .merge hs hne ih
    · rw [expandReplicatedStages_keep hs]
      exact .keep hs ih

def replicableInsts (stages : List (PipelineStage I)) : Finset I :=
  (stages.filter fun s => s.type = .replicable).foldr (fun s all => s.instructions ∪ all) ∅

theorem replicableInsts_keep (hs : s.type ≠ .replicable) :
    replicableInsts (s :: stages) = replicableInsts stages := by
  rw [replicableInsts, List.filter_cons, if_neg (fun h => hs (of_decide_eq_true h))]
  rfl

theorem replicableInsts_merge (hs : s.type = .replicable) :
    replicableInsts (s :: stages) = s.instructions ∪ replicableInsts stages := by
  rw [replicableInsts, List.filter_cons, if_pos (decide_eq_true hs)]
  rfl

theorem mem_replicableInsts {i : I} : i ∈ replicableInsts stages ↔
    ∃ s ∈ stages, s.type = .replicable ∧ i ∈ s.instructions := by
  induction stages with
  | nil => simp [replicableInsts]
  | cons s stages ih =>
    by_cases hs : s.type = .replicable
    · rw [replicableInsts_merge hs, Finset.mem_union, ih]
      simp [hs]
    · rw [replicableInsts_keep hs, ih]
      simp [hs]

namespace Expands

theorem not_replicable (h : Expands stages out) : ∀ s ∈ out, s.type ≠ .replicable := by
  induction h with
  | nil => simp
  | last hs => simp
  | keep hs _ ih =>
    intro t ht
    rcases List.mem_cons.1 ht with rfl | ht
    · exact hs
    · exact ih t ht
  | merge _ _ _ ih =>
    intro t ht
    obtain ⟨u, hu, rfl⟩ := List.mem_map.1 ht
    exact ih u hu

/-- The stages that remain, in their order, with what is changed of them. -/
theorem remaining (h : Expands stages out) : ∃ kept, kept.Sublist stages ∧
    (stages.filter fun s => s.type ≠ .replicable).Sublist kept ∧
    List.Forall₂ (fun s t => t.instructions = s.instructions ∧
      t.parallelFactor = s.parallelFactor ∧ (s.type ≠ .replicable → t.type = s.type)) kept out := by
  induction h with
  | nil => exact ⟨[], .slnil, .slnil, .nil⟩
  | @last s hs =>
    refine ⟨[s], List.Sublist.refl _, List.filter_sublist, .cons ⟨rfl, rfl, ?_⟩ .nil⟩
    exact fun hne => absurd hs hne
  | @keep s rest out hs _ ih =>
    obtain ⟨kept, hsub, hall, hmatch⟩ := ih
    refine ⟨s :: kept, hsub.cons_cons s, ?_, .cons ⟨rfl, rfl, fun _ => rfl⟩ hmatch⟩
    rw [List.filter_cons, if_pos (decide_eq_true hs)]
    exact hall.cons_cons s
  | @merge s rest out hs _ _ ih =>
    obtain ⟨kept, hsub, hall, hmatch⟩ := ih
    refine ⟨kept, hsub.cons s, ?_, ?_⟩
    · rw [List.filter_cons, if_neg (by rw [hs]; decide)]
      exact hall
    · rw [List.forall₂_map_right_iff]
      exact hmatch

theorem ne_nil (h : Expands stages out) (hne : stages ≠ []) : out ≠ [] := by
  induction h with
  | nil => exact hne
  | last _ => exact List.cons_ne_nil _ _
  | keep _ _ _ => exact List.cons_ne_nil _ _
  | merge _ hrest _ ih => exact fun hout => ih hrest (List.map_eq_nil_iff.1 hout)

/-- A stage that is not replicable gets the replicable stages before it as its prefix, and none of
these is left. -/
theorem prefix_eq {before : List (PipelineStage I)} (h : Expands (before ++ s :: rest) out)
    (hs : s.type ≠ .replicable) : ∃ front back,
      out = front ++ s.addPrefix (replicableInsts before) :: back ∧
      front.map (·.instructions) =
        (before.filter fun t => t.type ≠ .replicable).map (·.instructions) := by
  induction before generalizing out with
  | nil =>
    cases h with
    | last hrep => exact absurd hrep hs
    | merge hrep => exact absurd hrep hs
    | @keep _ _ out _ _ =>
      refine ⟨[], out, ?_, rfl⟩
      rw [PipelineStage.addPrefix, replicableInsts, List.filter_nil, List.foldr_nil,
        Finset.union_empty, List.nil_append]
  | cons b before ih =>
    rw [List.cons_append] at h
    generalize hl : before ++ s :: rest = l at h
    cases h with
    | last _ => exact absurd hl (List.append_ne_nil_of_right_ne_nil before (List.cons_ne_nil s rest))
    | @keep _ _ out hb hrest =>
      subst hl
      obtain ⟨front, back, rfl, hfront⟩ := ih hrest
      refine ⟨b :: front, back, ?_, ?_⟩
      · rw [replicableInsts_keep hb, List.cons_append]
      · rw [List.filter_cons, if_pos (decide_eq_true hb), List.map_cons, List.map_cons, hfront]
    | @merge _ _ out hb _ hrest =>
      subst hl
      obtain ⟨front, back, rfl, hfront⟩ := ih hrest
      refine ⟨front.map (PipelineStage.addPrefix b.instructions),
        back.map (PipelineStage.addPrefix b.instructions), ?_, ?_⟩
      · rw [List.map_append, List.map_cons, replicableInsts_merge hb, PipelineStage.addPrefix,
          PipelineStage.addPrefix, PipelineStage.addPrefix, Finset.union_assoc,
          Finset.union_comm (replicableInsts before)]
      · rw [List.filter_cons, if_neg (by rw [hb]; decide), List.map_map, ← hfront]
        rfl

theorem mem_replicated (h : Expands stages out) (hempty : ∀ s ∈ stages, s.replicated = ∅) :
    ∀ t ∈ out, ∀ i ∈ t.replicated, i ∈ replicableInsts stages := by
  induction h with
  | nil => simp
  | @last s hs =>
    intro t ht i hi
    rw [List.mem_singleton.1 ht, hempty s (List.mem_singleton_self s)] at hi
    exact absurd hi (Finset.notMem_empty i)
  | @keep s rest out hs _ ih =>
    intro t ht i hi
    rcases List.mem_cons.1 ht with rfl | ht
    · rw [hempty t List.mem_cons_self] at hi
      exact absurd hi (Finset.notMem_empty i)
    · have hmem := ih (fun u hu => hempty u (List.mem_cons_of_mem s hu)) t ht i hi
      obtain ⟨r, hr, hrep⟩ := mem_replicableInsts.1 hmem
      exact mem_replicableInsts.2 ⟨r, List.mem_cons_of_mem s hr, hrep⟩
  | @merge s rest out hs _ _ ih =>
    intro t ht i hi
    obtain ⟨u, hu, rfl⟩ := List.mem_map.1 ht
    rcases Finset.mem_union.1 hi with hi | hi
    · have hmem := ih (fun v hv => hempty v (List.mem_cons_of_mem s hv)) u hu i hi
      obtain ⟨r, hr, hrep⟩ := mem_replicableInsts.1 hmem
      exact mem_replicableInsts.2 ⟨r, List.mem_cons_of_mem s hr, hrep⟩
    · exact mem_replicableInsts.2 ⟨s, List.mem_cons_self, hs, hi⟩

theorem exists_instructions_eq (h : Expands stages out) :
    ∀ t ∈ out, ∃ s ∈ stages, t.instructions = s.instructions := by
  induction h with
  | nil => simp
  | @last s hs =>
    intro t ht
    exact ⟨s, List.mem_singleton_self s, by rw [List.mem_singleton.1 ht]⟩
  | @keep s rest out hs _ ih =>
    intro t ht
    rcases List.mem_cons.1 ht with rfl | ht
    · exact ⟨t, List.mem_cons_self, rfl⟩
    · obtain ⟨r, hr, heq⟩ := ih t ht
      exact ⟨r, List.mem_cons_of_mem s hr, heq⟩
  | @merge s rest out hs _ _ ih =>
    intro t ht
    obtain ⟨u, hu, rfl⟩ := List.mem_map.1 ht
    obtain ⟨r, hr, heq⟩ := ih u hu
    exact ⟨r, List.mem_cons_of_mem s hr, heq⟩

theorem disjoint_prefix (h : Expands stages out) (hempty : ∀ s ∈ stages, s.replicated = ∅)
    (hdisj : stages.Pairwise fun s t => Disjoint s.instructions t.instructions) :
    ∀ t ∈ out, ∀ u ∈ out, Disjoint t.replicated u.instructions := by
  induction h with
  | nil => simp
  | @last s hs =>
    intro t ht u _
    rw [List.mem_singleton.1 ht, hempty s (List.mem_singleton_self s)]
    exact Finset.disjoint_empty_left _
  | @keep s rest out hs hrest ih =>
    obtain ⟨hfirst, hlater⟩ := List.pairwise_cons.1 hdisj
    have hempty' : ∀ t ∈ rest, t.replicated = ∅ := fun t ht => hempty t (List.mem_cons_of_mem s ht)
    intro t ht u hu
    rcases List.mem_cons.1 ht with rfl | ht'
    · rw [hempty t List.mem_cons_self]
      exact Finset.disjoint_empty_left _
    · rcases List.mem_cons.1 hu with rfl | hu'
      · -- The prefix comes from stages behind the one that is kept.
        rw [Finset.disjoint_left]
        intro i hi hi'
        obtain ⟨r, hr, -, hir⟩ := mem_replicableInsts.1 (hrest.mem_replicated hempty' t ht' i hi)
        exact Finset.disjoint_left.1 (hfirst r hr) hi' hir
      · exact ih hempty' hlater t ht' u hu'
  | @merge s rest out hs _ hrest ih =>
    obtain ⟨hfirst, hlater⟩ := List.pairwise_cons.1 hdisj
    have hempty' : ∀ t ∈ rest, t.replicated = ∅ := fun t ht => hempty t (List.mem_cons_of_mem s ht)
    intro t ht u hu
    obtain ⟨t', ht', rfl⟩ := List.mem_map.1 ht
    obtain ⟨u', hu', rfl⟩ := List.mem_map.1 hu
    refine Finset.disjoint_union_left.2 ⟨ih hempty' hlater t' ht' u' hu', ?_⟩
    obtain ⟨r, hr, heq⟩ := hrest.exists_instructions_eq u' hu'
    change Disjoint s.instructions u'.instructions
    rw [heq]
    exact hfirst r hr

/-- Every instruction stays in a stage or a prefix. -/
theorem mem_pipelineInsts_iff (h : Expands stages out) (hempty : ∀ s ∈ stages, s.replicated = ∅)
    (i : I) :
    i ∈ pipelineInsts out ↔ i ∈ pipelineInsts stages := by
  induction h with
  | nil => rfl
  | last hs => rfl
  | @keep s rest out hs _ ih =>
    rw [pipelineInsts, pipelineInsts, List.foldr_cons, List.foldr_cons, Finset.mem_union,
      Finset.mem_union]
    exact or_congr_right (ih (fun t ht => hempty t (List.mem_cons_of_mem s ht)))
  | @merge s rest out hs hne hrest ih =>
    have hsplit : i ∈ pipelineInsts (s :: rest) ↔ i ∈ s.allInsts ∨ i ∈ pipelineInsts rest :=
      Finset.mem_union
    rw [hsplit, ← ih (fun t ht => hempty t (List.mem_cons_of_mem s ht)), mem_pipelineInsts,
      mem_pipelineInsts, PipelineStage.allInsts, hempty s List.mem_cons_self, Finset.union_empty]
    constructor
    · rintro ⟨t, ht, hi⟩
      obtain ⟨u, hu, rfl⟩ := List.mem_map.1 ht
      rcases hi with hi | hi
      · exact .inr ⟨u, hu, .inl hi⟩
      · exact (Finset.mem_union.1 hi).symm.imp_right (fun hi => ⟨u, hu, .inr hi⟩)
    · rintro (hi | ⟨u, hu, hi⟩)
      · obtain ⟨u, hu⟩ := List.exists_mem_of_ne_nil out (hrest.ne_nil hne)
        exact ⟨_, List.mem_map_of_mem hu, .inr (Finset.mem_union_right _ hi)⟩
      · exact ⟨_, List.mem_map_of_mem hu, hi.imp_right (Finset.mem_union_left _)⟩

end Expands

/-- Without prefixes before and an instruction in two stages, the expansion loses nothing: no stage is
replicable; the stages that remain keep their order and their instructions, and all that were not
replicable remain; every instruction is still in a stage or a prefix, and none in both; and the
prefix of a stage that was not replicable is made of the replicable stages before it, none of which
is left. -/
theorem expandReplicatedStages_complete (stages : List (PipelineStage I))
    (hdisj : stages.Pairwise fun s t => Disjoint s.instructions t.instructions)
    (hempty : ∀ s ∈ stages, s.replicated = ∅) :
    (∀ s ∈ expandReplicatedStages stages, s.type ≠ .replicable) ∧
      (∃ kept, kept.Sublist stages ∧
        (stages.filter fun s => s.type ≠ .replicable).Sublist kept ∧
        List.Forall₂ (fun s t => t.instructions = s.instructions ∧
          t.parallelFactor = s.parallelFactor ∧ (s.type ≠ .replicable → t.type = s.type)) kept
          (expandReplicatedStages stages)) ∧
      (∀ i, i ∈ pipelineInsts (expandReplicatedStages stages) ↔ i ∈ pipelineInsts stages) ∧
      (∀ s ∈ expandReplicatedStages stages, ∀ t ∈ expandReplicatedStages stages,
        Disjoint s.replicated t.instructions) ∧
      ∀ before s after, stages = before ++ s :: after → s.type ≠ .replicable → ∃ front back,
        expandReplicatedStages stages =
          front ++ { s with replicated := replicableInsts before } :: back ∧
        front.map (·.instructions) =
          (before.filter fun t => t.type ≠ .replicable).map (·.instructions) := by
  have h := expands_expandReplicatedStages stages
  refine ⟨h.not_replicable, h.remaining, h.mem_pipelineInsts_iff hempty,
    h.disjoint_prefix hempty hdisj, fun before s after heq hs => ?_⟩
  subst heq
  obtain ⟨front, back, hout, hfront⟩ := h.prefix_eq hs
  refine ⟨front, back, ?_, hfront⟩
  rw [hout, PipelineStage.addPrefix,
    hempty s (List.mem_append_right _ List.mem_cons_self), Finset.empty_union]

/-- A replicable stage before a sequential one, and one at the end. -/
theorem expandReplicatedStages_complete_threeStages : ∃ front back, expandReplicatedStages
    [(⟨.replicable, ∅, {0}, 1⟩ : PipelineStage ℕ), ⟨.sequential, ∅, {1}, 1⟩,
      ⟨.replicable, ∅, {2}, 1⟩] = front ++ ⟨.sequential, {0}, {1}, 1⟩ :: back ∧
      front.map (·.instructions) = [] :=
  (expandReplicatedStages_complete _ (by decide) (by decide)).2.2.2.2
    [⟨.replicable, ∅, {0}, 1⟩] _ [⟨.replicable, ∅, {2}, 1⟩] rfl (by decide)

end Cpf.Pipeline
