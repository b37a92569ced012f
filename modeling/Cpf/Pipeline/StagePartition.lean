import Cpf.Pipeline.ParallelStage
import Cpf.Pipeline.StageBuilding

/-!
# The stages partition the DAG

Whatever stages are built, every component is in one of them and no edge leads back. Both critics
put stages together such that every prefix of the pipeline holds the predecessors of its
components: for the parallel stage this is its convexity, and for balanced stages the counts of
the edges that are left.
-/

namespace Cpf.Pipeline.SCCDAG

variable {α : Type} {d : SCCDAG α}

/-- The components are in the stages once each, and no edge goes from a later stage to an earlier
one. -/
structure IsPartition (d : SCCDAG α) (stages : List (List α)) : Prop where
  once : stages.flatten.Perm d.nodes
  forward : ∀ e ∈ d.edges, ∀ i j, ∀ (hi : i < stages.length) (hj : j < stages.length),
    e.outgoing ∈ stages[i] → e.incoming ∈ stages[j] → i ≤ j

def Closed (d : SCCDAG α) (T : List α) : Prop := ∀ e ∈ d.edges, e.incoming ∈ T → e.outgoing ∈ T

theorem IsPartition.of_closed {stages : List (List α)} (hperm : stages.flatten.Perm d.nodes)
    (hclosed : ∀ k, d.Closed (stages.take k).flatten) : d.IsPartition stages := by
  refine ⟨hperm, ?_⟩
  intro e he i j hi hj ho hin
  by_contra hlt
  have hnd : stages.flatten.Nodup := hperm.nodup_iff.2 d.nodup
  rw [← List.take_append_drop (j + 1) stages, List.flatten_append] at hnd
  have hmem : e.incoming ∈ (stages.take (j + 1)).flatten := by
    apply List.mem_flatten.2
    refine ⟨stages[j], ?_, hin⟩
    rw [List.mem_take_iff_getElem]
    exact ⟨j, by omega, rfl⟩
  have hdrop : e.outgoing ∈ (stages.drop (j + 1)).flatten := by
    apply List.mem_flatten.2
    refine ⟨stages[i], ?_, ho⟩
    rw [List.mem_drop_iff_getElem]
    refine ⟨i - (j + 1), by omega, ?_⟩
    congr 1
    omega
  exact List.disjoint_of_nodup_append hnd (hclosed (j + 1) e he hmem) hdrop

theorem closed_nodes {T : List α} (h : T.Perm d.nodes) : d.Closed T :=
  fun e he _ => h.mem_iff.2 (d.ends e he).1

theorem append_rest_perm [DecidableEq α] {T : List α} (hnd : T.Nodup) (hmem : ∀ a ∈ T, a ∈ d.nodes) :
    (T ++ d.nodes.filter fun scc => scc ∉ T).Perm d.nodes := by
  have hT : T.Perm (d.nodes.filter fun scc => scc ∈ T) := by
    rw [List.perm_ext_iff_of_nodup hnd (d.nodup.filter _)]
    intro x
    simpa using hmem x
  have hsplit := List.filter_append_perm (fun scc => decide (scc ∈ T)) d.nodes
  have hnot : (d.nodes.filter fun scc => !decide (scc ∈ T)) = d.nodes.filter fun scc => scc ∉ T := by
    apply List.filter_congr
    intro x _
    rw [decide_not]
  rw [hnot] at hsplit
  exact (hT.append_right _).trans hsplit

/-! ### Around a parallel stage -/

section Pivot

variable {all pivots : List α}

theorem mem_pivot (d : SCCDAG α) (pivots : List α) {a : α} (ha : a ∈ all) :
    a ∈ (d.pivot all pivots).before ∨ a ∈ (d.pivot all pivots).after ∨
      a ∈ (d.pivot all pivots).flexible := by
  simp only [pivot, List.mem_filter, ha, true_and]
  cases d.orderedBeforeAny a pivots <;> cases d.orderedAfterAny pivots a <;> simp

theorem mem_pivot_before {a : α} :
    a ∈ (d.pivot all pivots).before ↔ a ∈ all ∧ ∃ p ∈ pivots, d.orderedBefore a p := by
  simp [pivot, orderedBeforeAny]

theorem pivot_perm (d : SCCDAG α) (all pivots : List α) : ((d.pivot all pivots).before ++
    ((d.pivot all pivots).after ++ (d.pivot all pivots).flexible)).Perm all := by
  have hrest : ((d.pivot all pivots).after ++ (d.pivot all pivots).flexible).Perm
      (all.filter fun scc => !d.orderedBeforeAny scc pivots) := by
    have hsplit := List.filter_append_perm (fun scc => d.orderedAfterAny pivots scc)
      (all.filter fun scc => !d.orderedBeforeAny scc pivots)
    rw [List.filter_filter, List.filter_filter] at hsplit
    simpa [pivot, Bool.and_comm] using hsplit
  exact (hrest.append_left _).trans
    (List.filter_append_perm (fun scc => d.orderedBeforeAny scc pivots) all)

theorem pivot2_perm (d : SCCDAG α) (all pivots : List α) :
    ((d.pivot2 all pivots).1 ++ (d.pivot2 all pivots).2).Perm all := by
  have hperm := d.pivot_perm all pivots
  rw [pivot2]
  split_ifs with hempty
  · rw [List.isEmpty_iff] at hempty
    rw [hempty] at hperm ⊢
    simpa using hperm
  · exact hperm

/-- No edge leads from a pivot or from what comes after it to what is put before it, if what is divided
is the rest of a convex set. -/
theorem closed_pivot2 (hall : ∀ a, a ∈ all ↔ a ∈ d.nodes ∧ a ∉ pivots)
    (hconvex : ∀ a ∈ pivots, ∀ b ∈ pivots, ∀ k, d.orderedBefore a k → d.orderedBefore k b →
      k ∈ pivots) :
    d.Closed (d.pivot2 all pivots).1 ∧ d.Closed ((d.pivot2 all pivots).1 ++ pivots) := by
  have hbefore : ∀ e ∈ d.edges, e.incoming ∈ (d.pivot all pivots).before →
      e.outgoing ∈ (d.pivot all pivots).before := by
    intro e he hin
    obtain ⟨hmem, p, hp, hlt⟩ := mem_pivot_before.1 hin
    have hedge := orderedBefore_of_edge he
    refine mem_pivot_before.2 ⟨(hall _).2 ⟨(d.ends e he).1, fun hout => ?_⟩, p, hp,
      orderedBefore_trans hedge hlt⟩
    exact ((hall _).1 hmem).2 (hconvex _ hout p hp _ hedge hlt)
  have hpivots : ∀ e ∈ d.edges, e.incoming ∈ pivots →
      e.outgoing ∈ (d.pivot all pivots).before ∨ e.outgoing ∈ pivots := by
    intro e he hin
    by_cases hout : e.outgoing ∈ pivots
    · exact Or.inr hout
    · exact Or.inl (mem_pivot_before.2 ⟨(hall _).2 ⟨(d.ends e he).1, hout⟩, _, hin,
        orderedBefore_of_edge he⟩)
  have hfirst : d.Closed (d.pivot2 all pivots).1 := by
    intro e he hin
    rw [pivot2] at hin ⊢
    split_ifs at hin ⊢ with hempty
    · rcases List.mem_append.1 hin with hin | hin
      · exact List.mem_append_left _ (hbefore e he hin)
      · simp only [pivot, List.mem_filter, Bool.and_eq_true, Bool.not_eq_true'] at hin
        -- A pivot before a flexible component would put the component after the pivots.
        have hout : e.outgoing ∉ pivots := by
          intro hout
          have htrue : d.orderedAfterAny pivots e.incoming :=
            List.any_eq_true.2 ⟨_, hout, orderedBefore_of_edge he⟩
          rw [htrue] at hin
          exact absurd hin.2.2 (by decide)
        rcases d.mem_pivot pivots ((hall _).2 ⟨(d.ends e he).1, hout⟩) with
          h | h | h
        · exact List.mem_append_left _ h
        · rw [List.isEmpty_iff.1 hempty] at h
          exact absurd h List.not_mem_nil
        · exact List.mem_append_right _ h
    · exact hbefore e he hin
  refine ⟨hfirst, ?_⟩
  have hsub : ∀ a ∈ (d.pivot all pivots).before, a ∈ (d.pivot2 all pivots).1 := by
    intro a ha
    rw [pivot2]
    split_ifs
    · exact List.mem_append_left _ ha
    · exact ha
  intro e he hin
  rcases List.mem_append.1 hin with hin | hin
  · exact List.mem_append_left _ (hfirst e he hin)
  · rcases hpivots e he hin with h | h
    · exact List.mem_append_left _ (hsub _ h)
    · exact List.mem_append_right _ h

end Pivot

def AroundParallel (stages : List (SCCStage α)) : Prop :=
  ∃ before parallel after, stages = before ++ [parallel] ++ after ∧ parallel.type = .parallel ∧
    before.length ≤ 1 ∧ after.length ≤ 1 ∧ ∀ s ∈ before ++ after, s.type = .sequential

theorem aroundParallel_stagesAround (n : UInt32) (b p a : List α) :
    AroundParallel (stagesAround n b p a) := by
  refine ⟨_, _, _, rfl, rfl, ?_, ?_, ?_⟩
  · split_ifs
    · exact Nat.zero_le 1
    · exact le_rfl
  · split_ifs
    · exact Nat.zero_le 1
    · exact le_rfl
  · intro s hs
    rcases List.mem_append.1 hs with hs | hs
    · split_ifs at hs
      · exact absurd hs List.not_mem_nil
      · rw [List.mem_singleton.1 hs]
    · split_ifs at hs
      · exact absurd hs List.not_mem_nil
      · rw [List.mem_singleton.1 hs]

theorem flatten_take_stagesAround (n : UInt32) (b p a : List α) (k : ℕ) :
    (((stagesAround n b p a).map SCCStage.sccs).take k).flatten ∈
      [[], b, b ++ p, b ++ p ++ a] := by
  cases b with
  | nil =>
      cases a with
      | nil =>
          match k with
          | 0 => simp
          | k + 1 => simp [stagesAround]
      | cons x a =>
          match k with
          | 0 => simp
          | 1 => simp [stagesAround]
          | k + 2 => simp [stagesAround]
  | cons y b =>
      cases a with
      | nil =>
          match k with
          | 0 => simp
          | 1 => simp [stagesAround]
          | k + 2 => simp [stagesAround]
      | cons x a =>
          match k with
          | 0 => simp
          | 1 => simp [stagesAround]
          | 2 => simp [stagesAround]
          | k + 3 => simp [stagesAround]

theorem flatten_stagesAround (n : UInt32) (b p a : List α) :
    ((stagesAround n b p a).map SCCStage.sccs).flatten = b ++ p ++ a := by
  cases b with
  | nil =>
      cases a with
      | nil => simp [stagesAround]
      | cons x a => simp [stagesAround]
  | cons y b =>
      cases a with
      | nil => simp [stagesAround]
      | cons x a => simp [stagesAround]

theorem isPartition_stagesAround [DecidableEq α] {sel : List α} (hnd : sel.Nodup)
    (hnodes : ∀ a ∈ sel, a ∈ d.nodes)
    (hconvex : ∀ a ∈ sel, ∀ b ∈ sel, ∀ k, d.orderedBefore a k → d.orderedBefore k b → k ∈ sel)
    (n : UInt32) :
    d.IsPartition ((stagesAround n (d.pivot2 (d.nodes.filter fun scc => scc ∉ sel) sel).1 sel
      (d.pivot2 (d.nodes.filter fun scc => scc ∉ sel) sel).2).map SCCStage.sccs) := by
  obtain ⟨hclosed, hclosed'⟩ := closed_pivot2
    (fun a => by simp : ∀ a, a ∈ d.nodes.filter (fun scc => scc ∉ sel) ↔ _) hconvex
  have hperm := d.pivot2_perm (d.nodes.filter fun scc => scc ∉ sel) sel
  generalize (d.pivot2 (d.nodes.filter fun scc => scc ∉ sel) sel).1 = b at hclosed hclosed' hperm ⊢
  generalize (d.pivot2 (d.nodes.filter fun scc => scc ∉ sel) sel).2 = a at hperm ⊢
  have hall : (b ++ sel ++ a).Perm d.nodes := by
    have hmove : (b ++ sel ++ a).Perm (sel ++ (b ++ a)) := by
      rw [List.append_assoc]
      exact List.perm_append_comm_assoc b sel a
    exact (hmove.trans (hperm.append_left sel)).trans (append_rest_perm hnd hnodes)
  apply IsPartition.of_closed
  · rw [flatten_stagesAround]
    exact hall
  · intro k
    have hcases := flatten_take_stagesAround n b sel a k
    simp only [List.mem_cons, List.not_mem_nil, or_false] at hcases
    rcases hcases with h | h | h | h
    · rw [h]
      exact fun e _ hin => absurd hin List.not_mem_nil
    · rw [h]
      exact hclosed
    · rw [h]
      exact hclosed'
    · rw [h]
      exact closed_nodes hall

theorem doallAndPipeline_spec [DecidableEq α] {fuel : ℕ} {weight : α → UInt64} {threadBudget : UInt32}
    {includeParallelStages : Bool} {stages : List (SCCStage α)}
    (h : d.doallAndPipeline fuel weight threadBudget includeParallelStages = .ok (some stages)) :
    AroundParallel stages ∧ d.IsPartition (stages.map SCCStage.sccs) := by
  rw [doallAndPipeline] at h
  split_ifs at h
  · cases h
  · cases h
  · obtain ⟨r, hr, h⟩ := bind_eq_ok.1 h
    cases r with
    | none => cases h
    | some r =>
        obtain ⟨sel, rej⟩ := r
        obtain ⟨hnd, hnodes, hconvex, rfl⟩ := findMaxParallelStage_convex hr
        cases h
        exact ⟨aroundParallel_stagesAround _ _ _ _, isPartition_stagesAround hnd hnodes hconvex _⟩

end Cpf.Pipeline.SCCDAG
