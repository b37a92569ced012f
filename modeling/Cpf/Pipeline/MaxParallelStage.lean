import Cpf.Graph.KeptWeight
import Cpf.Pipeline.ParallelStage

/-!
# The weight of the parallel stage

The rules for a parallel stage, and when `findMaxParallelStage` finds a heaviest set of components
that meets them. The test for loop-carried edges does not look at the direction of an edge, so that
both ends of one are in conflict with themselves; only where no such edge joins two parallel
components is the choice the best one.
-/

namespace Cpf.Pipeline.SCCDAG

variable {α : Type} {d : SCCDAG α}

/-- The sets of parallel components that satisfy rule 1 and rule 2. -/
structure Admissible (d : SCCDAG α) (F : Finset α) : Prop where
  mem : ∀ a ∈ F, a ∈ d.nodes
  parallel : ∀ a ∈ F, d.isParallel a
  rule1 : ∀ a ∈ F, ∀ b ∈ F, ∀ s ∈ d.nodes, Relation.TransGen (EdgeRel d.edges) a s →
    Relation.TransGen (EdgeRel d.edges) s b → d.isParallel s
  rule2 : ∀ a ∈ F, ∀ b ∈ F, ∀ e ∈ d.edges, Relation.ReflTransGen (EdgeRel d.edges) a e.outgoing →
    Relation.ReflTransGen (EdgeRel d.edges) e.incoming b → e.loopCarried = false

def stageWeight (weight : α → UInt64) (F : Finset α) : ℕ := ∑ a ∈ F, (1 + 100 * (weight a).toNat)

def NoOverflow (d : SCCDAG α) (weight : α → UInt64) : Prop :=
  ∀ a ∈ d.nodes, 1 + 100 * (weight a).toNat < 2 ^ 64

/-- The result is a heaviest set that meets the rules; there is none only if no set does. -/
def IsOptimal [DecidableEq α] (d : SCCDAG α) (weight : α → UInt64) :
    Option (List α × List α) → Prop
  | some (sel, _) => sel ≠ [] ∧ d.Admissible sel.toFinset ∧
      ∀ F, d.Admissible F → F.Nonempty → stageWeight weight F ≤ stageWeight weight sel.toFinset
  | none => ∀ F, d.Admissible F → ¬ F.Nonempty

def NoParallelPair (d : SCCDAG α) : Prop :=
  ∀ e ∈ d.edges, e.loopCarried → ¬ (d.isParallel e.outgoing ∧ d.isParallel e.incoming)

/-! ### Without loop-carried edges between parallel components -/

section Sufficient

/-- The weight of a set of components is the weight of their indices in the network. -/
theorem weightOf_image {weight : α → UInt64} (hover : d.NoOverflow weight) {pred : α → Bool}
    (incompat : α → α → Bool) {F : Finset α} (hF : ∀ a ∈ F, a ∈ d.nodes.filter pred) :
    (d.allConflicts weight pred incompat).weightOf (F.image d.getSCCIndex) =
      stageWeight weight F := by
  rw [Graph.Conflicts.weightOf, stageWeight, Finset.sum_image]
  · apply Finset.sum_congr rfl
    intro a ha
    change (d.weightAt weight (d.nodes.filter pred) (d.getSCCIndex a)).toNat = _
    rw [weightAt_index (fun b hb => mem_nodes_of_filter hb) (hF a ha), UInt64.toNat_add,
      UInt64.toNat_mul]
    have hlt := hover a (mem_nodes_of_filter (hF a ha))
    change (1 + 100 * (weight a).toNat % 2 ^ 64) % 2 ^ 64 = _
    omega
  · intro a ha b hb heq
    exact d.index_inj a (mem_nodes_of_filter (hF a ha)) b (mem_nodes_of_filter (hF b hb)) heq

theorem stageWeight_pos (weight : α → UInt64) {F : Finset α} (h : F.Nonempty) :
    0 < stageWeight weight F := by
  apply Finset.sum_pos _ h
  intro a _
  omega

variable [DecidableEq α]

theorem not_incompat (hpair : d.NoParallelPair) {a b : α}
    (ha : a ∈ d.nodes.filter d.isParallel) (hb : b ∈ d.nodes.filter d.isParallel) :
    ¬ d.loopCarriedBetweenSCCs a b := by
  have hpa := (List.mem_filter.1 ha).2
  have hpb := (List.mem_filter.1 hb).2
  intro h
  simp only [loopCarriedBetweenSCCs, Bool.or_eq_true, List.any_eq_true, Bool.and_eq_true,
    decide_eq_true_eq] at h
  rcases h with ⟨e, he, ⟨rfl, rfl⟩, hlc⟩ | ⟨e, he, ⟨rfl, rfl⟩, hlc⟩
  · exact hpair e he hlc ⟨hpb, hpa⟩
  · exact hpair e he hlc ⟨hpa, hpb⟩

theorem conflicting_iff (hpair : d.NoParallelPair) {a b : α} :
    d.Conflicting d.loopCarriedBetweenSCCs (d.nodes.filter d.isParallel)
        (d.nodes.filter fun scc => !d.isParallel scc) a b ↔
      ∃ s ∈ d.nodes, d.isParallel s = false ∧ d.orderedBefore a s ∧ d.orderedBefore s b := by
  constructor
  · rintro (⟨s, hs, has, hsb⟩ | ⟨scc1, h1, scc2, h2, hinc, -⟩)
    · obtain ⟨hnode, hnot⟩ := List.mem_filter.1 hs
      exact ⟨s, hnode, by simpa using hnot, has, hsb⟩
    · exact absurd hinc (not_incompat hpair h1 h2)
  · rintro ⟨s, hnode, hnot, has, hsb⟩
    exact Or.inl ⟨s, List.mem_filter.2 ⟨hnode, by simpa using hnot⟩, has, hsb⟩

/-- Rule 2 follows from rule 1: a path without bad components has no loop-carried edge. -/
theorem admissible_iff (hpair : d.NoParallelPair) {F : Finset α} :
    d.Admissible F ↔ (∀ a ∈ F, a ∈ d.nodes.filter d.isParallel) ∧
      ∀ a ∈ F, ∀ b ∈ F, ¬ d.Conflicting d.loopCarriedBetweenSCCs (d.nodes.filter d.isParallel)
        (d.nodes.filter fun scc => !d.isParallel scc) a b := by
  constructor
  · intro h
    refine ⟨fun a ha => List.mem_filter.2 ⟨h.mem a ha, h.parallel a ha⟩, ?_⟩
    intro a ha b hb hc
    obtain ⟨s, hs, hnot, has, hsb⟩ := (conflicting_iff hpair).1 hc
    rw [h.rule1 a ha b hb s hs ((d.ordered a s).1 has) ((d.ordered s b).1 hsb)] at hnot
    cases hnot
  · rintro ⟨hgood, hfree⟩
    have hrule1 : ∀ a ∈ F, ∀ b ∈ F, ∀ s ∈ d.nodes, Relation.TransGen (EdgeRel d.edges) a s →
        Relation.TransGen (EdgeRel d.edges) s b → d.isParallel s := by
      intro a ha b hb s hs has hsb
      by_contra hnot
      exact hfree a ha b hb ((conflicting_iff hpair).2
        ⟨s, hs, by simpa using hnot, (d.ordered a s).2 has, (d.ordered s b).2 hsb⟩)
    refine ⟨fun a ha => (List.mem_filter.1 (hgood a ha)).1,
      fun a ha => (List.mem_filter.1 (hgood a ha)).2, hrule1, ?_⟩
    intro a ha b hb e he hae hib
    have hedge : EdgeRel d.edges e.outgoing e.incoming := ⟨e, he, rfl, rfl⟩
    have hout : d.isParallel e.outgoing := by
      rcases Relation.reflTransGen_iff_eq_or_transGen.1 hae with heq | hae'
      · rw [heq]
        exact (List.mem_filter.1 (hgood a ha)).2
      · exact hrule1 a ha b hb _ (d.ends e he).1 hae' (Relation.TransGen.head' hedge hib)
    have hin : d.isParallel e.incoming := by
      rcases Relation.reflTransGen_iff_eq_or_transGen.1 hib with heq | hib'
      · rw [← heq]
        exact (List.mem_filter.1 (hgood b hb)).2
      · exact hrule1 a ha b hb _ (d.ends e he).2 (Relation.TransGen.tail' hae hedge) hib'
    by_contra hlc
    exact hpair e he (Bool.eq_true_of_not_eq_false hlc) ⟨hout, hin⟩

/-- No admissible set weighs more than what the minimum cut leaves. -/
theorem stageWeight_le (hpair : d.NoParallelPair) {weight : α → UInt64}
    (hover : d.NoOverflow weight) {f : ℕ × ℕ → ℕ} {S : Set ℕ} {cut : List ℕ}
    (hmin : Graph.IsMinCut
      (d.allConflicts weight d.isParallel d.loopCarriedBetweenSCCs).network f S cut)
    (sel : Finset α)
    (hsel : ∀ a, a ∈ sel ↔
      a ∈ d.nodes.filter d.isParallel ∧ Graph.Conflicts.Kept cut (d.getSCCIndex a))
    {F : Finset α} (hF : d.Admissible F) : stageWeight weight F ≤ stageWeight weight sel := by
  obtain ⟨hgood, hfree⟩ := (admissible_iff hpair).1 hF
  have hgoodSel : ∀ a ∈ sel, a ∈ d.nodes.filter d.isParallel := fun a ha => ((hsel a).1 ha).1
  have hitems : ∀ i, i ∈ (d.allConflicts weight d.isParallel d.loopCarriedBetweenSCCs).items →
      ∃ a ∈ d.nodes.filter d.isParallel, d.getSCCIndex a = i := fun i hi => List.mem_map.1 hi
  have hkept : (d.allConflicts weight d.isParallel d.loopCarriedBetweenSCCs).kept cut =
      sel.image d.getSCCIndex := by
    ext i
    rw [Graph.Conflicts.kept, Finset.mem_filter, Finset.mem_image, List.mem_toFinset]
    constructor
    · rintro ⟨hi, hk⟩
      obtain ⟨a, ha, rfl⟩ := hitems i hi
      exact ⟨a, (hsel a).2 ⟨ha, hk⟩, rfl⟩
    · rintro ⟨a, ha, rfl⟩
      exact ⟨List.mem_map_of_mem (hgoodSel a ha), ((hsel a).1 ha).2⟩
  have htrans : ∀ i j k,
      (i, j) ∈ (d.allConflicts weight d.isParallel d.loopCarriedBetweenSCCs).pairs →
      (j, k) ∈ (d.allConflicts weight d.isParallel d.loopCarriedBetweenSCCs).pairs →
      (i, k) ∈ (d.allConflicts weight d.isParallel d.loopCarriedBetweenSCCs).pairs := by
    intro i j k hij hjk
    obtain ⟨a, ha, rfl⟩ := hitems i (Graph.Conflicts.mem _ _ hij).1
    obtain ⟨b, hb, rfl⟩ := hitems j (Graph.Conflicts.mem _ _ hij).2
    obtain ⟨c, hc, rfl⟩ := hitems k (Graph.Conflicts.mem _ _ hjk).2
    rw [mem_allConflicts ha hb, conflicting_iff hpair] at hij
    rw [mem_allConflicts hb hc, conflicting_iff hpair] at hjk
    rw [mem_allConflicts ha hc, conflicting_iff hpair]
    obtain ⟨s, hs, hnot, has, hsb⟩ := hij
    obtain ⟨t, -, -, hbt, htc⟩ := hjk
    exact ⟨s, hs, hnot, has, orderedBefore_trans hsb (orderedBefore_trans hbt htc)⟩
  rw [← weightOf_image hover d.loopCarriedBetweenSCCs hgood,
    ← weightOf_image hover d.loopCarriedBetweenSCCs hgoodSel, ← hkept]
  apply Graph.Conflicts.weightOf_le hmin htrans
  · intro i hi
    obtain ⟨a, ha, rfl⟩ := Finset.mem_image.1 hi
    exact List.mem_toFinset.2 (List.mem_map_of_mem (hgood a ha))
  · intro i hi j hj hc
    obtain ⟨a, ha, rfl⟩ := Finset.mem_image.1 hi
    obtain ⟨b, hb, rfl⟩ := Finset.mem_image.1 hj
    exact hfree a ha b hb ((mem_allConflicts (hgood a ha) (hgood b hb)).1 hc)

theorem findMaxGoodStage_total (d : SCCDAG α) (weight : α → UInt64) (pred : α → Bool)
    (incompat : α → α → Bool) :
    ∃ n, ∀ fuel ≥ n, ∃ r, d.findMaxGoodStage fuel d.nodes weight pred incompat = .ok r := by
  refine ⟨(d.allConflicts weight pred incompat).network.enough, fun fuel hfuel => ?_⟩
  obtain ⟨cut, hcut⟩ := Graph.computeMinCut_total
    (Graph.Conflicts.ok (d.allConflicts weight pred incompat)) hfuel
  rw [allConflicts, ← flowNetwork_eq fun b hb => mem_nodes_of_filter hb] at hcut
  simp only [findMaxGoodStage, hcut]
  split_ifs
  · exact ⟨_, rfl⟩
  · simp only [bind, Except.bind]
    split_ifs
    · exact ⟨_, rfl⟩
    · exact ⟨_, rfl⟩

theorem isOptimal_of_noParallelPair (hpair : d.NoParallelPair) {weight : α → UInt64}
    (hover : d.NoOverflow weight) {fuel : ℕ} {r : Option (List α × List α)}
    (h : d.findMaxParallelStage fuel weight = .ok r) : d.IsOptimal weight r := by
  rcases findMaxGoodStage_spec h with ⟨hnil, rfl⟩ | ⟨f, S, cut, hmin, ⟨hnone, rfl⟩ | ⟨sel, hne, -, rfl, hsel⟩⟩
  · rintro F hF ⟨a, ha⟩
    have hgood := ((admissible_iff hpair).1 hF).1 a ha
    rw [hnil] at hgood
    exact List.not_mem_nil hgood
  · intro F hF hne
    have hle := stageWeight_le hpair hover hmin ∅ (fun a => by
      simpa using fun hnode hpar => hnone a (List.mem_filter.2 ⟨hnode, hpar⟩)) hF
    have hpos := stageWeight_pos weight hne
    have hzero : stageWeight weight (∅ : Finset α) = 0 := Finset.sum_empty
    omega
  · refine ⟨hne, ?_, fun F hF _ => ?_⟩
    · rw [admissible_iff hpair]
      refine ⟨fun a ha => ((hsel a).1 (List.mem_toFinset.1 ha)).1, fun a ha b hb => ?_⟩
      exact not_conflicting hmin hsel (List.mem_toFinset.1 ha) (List.mem_toFinset.1 hb)
    · exact stageWeight_le hpair hover hmin _ (fun a => by rw [List.mem_toFinset, hsel a]) hF

end Sufficient

/-! ### With one -/

section Necessary

/-- One parallel component alone meets the rules. -/
theorem admissible_singleton {a : α} (ha : a ∈ d.nodes) (hpar : d.isParallel a) :
    d.Admissible {a} := by
  refine ⟨?_, ?_, ?_, ?_⟩
  · intro b hb
    rw [Finset.mem_singleton.1 hb]
    exact ha
  · intro b hb
    rw [Finset.mem_singleton.1 hb]
    exact hpar
  · intro b hb b' hb' s _ h1 h2
    rw [Finset.mem_singleton.1 hb] at h1
    rw [Finset.mem_singleton.1 hb'] at h2
    exact absurd (h1.trans h2) (d.acyclic a)
  · intro b hb b' hb' e he h1 h2
    rw [Finset.mem_singleton.1 hb] at h1
    rw [Finset.mem_singleton.1 hb'] at h2
    have hedge : EdgeRel d.edges e.outgoing e.incoming := ⟨e, he, rfl, rfl⟩
    exact absurd (Relation.TransGen.tail' h1 hedge |>.trans_left h2) (d.acyclic a)

variable [DecidableEq α]

/-- Both orders of a loop-carried edge are taken for a conflict, and its source comes before its
destination: the source is in conflict with itself. -/
theorem conflicting_self {e : SCCEdge α} (he : e ∈ d.edges) (hlc : e.loopCarried)
    (hout : d.isParallel e.outgoing) (hin : d.isParallel e.incoming) :
    d.Conflicting d.loopCarriedBetweenSCCs (d.nodes.filter d.isParallel)
      (d.nodes.filter fun scc => !d.isParallel scc) e.outgoing e.outgoing :=
  Or.inr ⟨e.incoming, List.mem_filter.2 ⟨(d.ends e he).2, hin⟩, e.outgoing,
    List.mem_filter.2 ⟨(d.ends e he).1, hout⟩, (incompat_of_edge he hlc).2,
    Or.inr (orderedBefore_of_edge he), Or.inl rfl⟩

/-- A weight function under which one component weighs more than all the others. -/
def heavy (d : SCCDAG α) (a : α) (b : α) : UInt64 :=
  if b = a then UInt64.ofNat d.nodes.length else 0

theorem heavy_self (d : SCCDAG α) (a : α) : (d.heavy a a).toNat = d.nodes.length := by
  have hlen := d.length_nodes_le
  rw [heavy, if_pos rfl, UInt64.toNat_ofNat']
  omega

theorem noOverflow_heavy (d : SCCDAG α) (a : α) : d.NoOverflow (d.heavy a) := by
  intro b _
  by_cases hb : b = a
  · subst hb
    have hlen := d.length_nodes_le
    rw [heavy_self]
    omega
  · rw [heavy, if_neg hb]
    decide

theorem stageWeight_heavy {a : α} {F : Finset α} (ha : a ∉ F) (hF : ∀ b ∈ F, b ∈ d.nodes) :
    stageWeight (d.heavy a) F ≤ d.nodes.length := by
  have hone : ∀ b ∈ F, 1 + 100 * (d.heavy a b).toNat = 1 := by
    intro b hb
    have hne : b ≠ a := fun heq => ha (heq ▸ hb)
    rw [heavy, if_neg hne]
    rfl
  rw [stageWeight, Finset.sum_congr rfl hone, Finset.sum_const, smul_eq_mul, mul_one,
    ← List.toFinset_card_of_nodup d.nodup]
  exact Finset.card_le_card fun b hb => List.mem_toFinset.2 (hF b hb)

theorem not_isOptimal {e : SCCEdge α} (he : e ∈ d.edges) (hlc : e.loopCarried)
    (hout : d.isParallel e.outgoing) (hin : d.isParallel e.incoming) {fuel : ℕ}
    {r : Option (List α × List α)}
    (h : d.findMaxParallelStage fuel (d.heavy e.outgoing) = .ok r) :
    ¬ d.IsOptimal (d.heavy e.outgoing) r := by
  have hsingle : d.Admissible {e.outgoing} := admissible_singleton (d.ends e he).1 hout
  have hnone : ¬ d.IsOptimal (d.heavy e.outgoing) none := fun hopt =>
    hopt _ hsingle (Finset.singleton_nonempty _)
  rcases findMaxGoodStage_spec h with ⟨-, rfl⟩ | ⟨f, S, cut, hmin, ⟨-, rfl⟩ | ⟨sel, -, -, rfl, hsel⟩⟩
  · exact hnone
  · exact hnone
  · rintro ⟨-, hadm, hmax⟩
    have hnot : e.outgoing ∉ sel.toFinset := by
      intro hmem
      have hmem' := List.mem_toFinset.1 hmem
      exact not_conflicting hmin hsel hmem' hmem' (conflicting_self he hlc hout hin)
    have hle := hmax _ hsingle (Finset.singleton_nonempty _)
    have hlight := stageWeight_heavy hnot hadm.mem
    rw [stageWeight, Finset.sum_singleton, heavy_self] at hle
    omega

end Necessary

section Optimal

variable [DecidableEq α]

/-- The code finds a heaviest admissible stage for all weights if and only if no loop-carried edge
joins two parallel components. -/
theorem parallel_stage_optimal_iff (d : SCCDAG α) :
    (∀ weight : α → UInt64, d.NoOverflow weight → ∃ n, ∀ fuel ≥ n, ∃ r,
      d.findMaxParallelStage fuel weight = .ok r ∧ d.IsOptimal weight r) ↔ d.NoParallelPair := by
  constructor
  · intro hall e he hlc ⟨hout, hin⟩
    obtain ⟨n, hn⟩ := hall (d.heavy e.outgoing) (d.noOverflow_heavy e.outgoing)
    obtain ⟨r, hr, hopt⟩ := hn n le_rfl
    exact not_isOptimal he hlc hout hin hr hopt
  · intro hpair weight hover
    obtain ⟨n, hn⟩ := findMaxGoodStage_total d weight d.isParallel d.loopCarriedBetweenSCCs
    refine ⟨n, fun fuel hfuel => ?_⟩
    obtain ⟨r, hr⟩ := hn fuel hfuel
    exact ⟨r, hr, isOptimal_of_noParallelPair hpair hover hr⟩

/-- Two parallel components and a loop-carried edge between them. -/
def twoJoined : SCCDAG (Fin 2) := twoInARow true fun _ => false

/-- No stage is found, although either component alone would do. -/
theorem no_parallel_stage_twoJoined :
    twoJoined.findMaxParallelStage 20 (fun _ => 0) = .ok none ∧
      twoJoined.NoOverflow (fun _ => 0) ∧ ¬ twoJoined.IsOptimal (fun _ => 0) none := by
  refine ⟨by decide +kernel, fun _ _ => (by decide : 1 + 100 * (0 : UInt64).toNat < 2 ^ 64), ?_⟩
  intro hopt
  exact hopt {0} (admissible_singleton (by decide) (by decide)) (Finset.singleton_nonempty 0)

end Optimal

end Cpf.Pipeline.SCCDAG
