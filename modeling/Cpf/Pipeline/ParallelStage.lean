import Cpf.Basics.RingIndex
import Cpf.Pipeline.GoodStage

/-!
# The parallel stage is sound

The pairs that `findMaxGoodStage` adds are closed under predecessors of the first and successors of
the second component. A component between two chosen ones is therefore chosen, and no two chosen
components are joined by a loop-carried dependence.
-/

namespace Cpf.Pipeline.SCCDAG

variable {α : Type} {d : SCCDAG α}

theorem transGen_lt [Preorder α] {edges : List (SCCEdge α)} {a b : α}
    (hup : ∀ e ∈ edges, e.outgoing < e.incoming) (h : Relation.TransGen (EdgeRel edges) a b) :
    a < b := by
  induction h with
  | single hstep =>
      obtain ⟨e, he, rfl, rfl⟩ := hstep
      exact hup e he
  | tail _ hstep ih =>
      obtain ⟨e, he, rfl, rfl⟩ := hstep
      exact ih.trans (hup e he)

theorem orderedBefore_trans {a b c : α} (hab : d.orderedBefore a b) (hbc : d.orderedBefore b c) :
    d.orderedBefore a c := by
  rw [d.ordered] at hab hbc ⊢
  exact hab.trans hbc

theorem not_orderedBefore_self (a : α) : ¬ d.orderedBefore a a := by
  rw [d.ordered]
  exact d.acyclic a

theorem not_orderedBefore_symm {a b : α} (hab : d.orderedBefore a b) : ¬ d.orderedBefore b a :=
  fun hba => not_orderedBefore_self a (orderedBefore_trans hab hba)

theorem orderedBefore_of_edge {e : SCCEdge α} (he : e ∈ d.edges) :
    d.orderedBefore e.outgoing e.incoming :=
  (d.ordered _ _).2 (Relation.TransGen.single ⟨e, he, rfl, rfl⟩)

theorem mem_of_orderedBefore {a b : α} (h : d.orderedBefore a b) : a ∈ d.nodes ∧ b ∈ d.nodes := by
  rw [d.ordered] at h
  induction h with
  | single hstep =>
      obtain ⟨e, he, rfl, rfl⟩ := hstep
      exact d.ends e he
  | tail _ hstep ih =>
      obtain ⟨e, he, -, rfl⟩ := hstep
      exact ⟨ih.1, (d.ends e he).2⟩

theorem length_nodes_le (d : SCCDAG α) : d.nodes.length ≤ 2 ^ 31 := by
  have hnd : (d.nodes.map d.getSCCIndex).Nodup := by
    apply List.Nodup.map_on _ d.nodup
    intro a ha b hb heq
    exact d.index_inj a ha b hb heq
  have hsub : (d.nodes.map d.getSCCIndex).toFinset ⊆ Finset.range (2 ^ 31) := by
    intro i hi
    obtain ⟨a, ha, rfl⟩ := List.mem_map.1 (List.mem_toFinset.1 hi)
    have hlt := d.index_lt a ha
    exact Finset.mem_range.2 (by omega)
  have hcard := Finset.card_le_card hsub
  rw [List.toFinset_card_of_nodup hnd, List.length_map, Finset.card_range] at hcard
  exact hcard

theorem mem_before {all : List α} {a s : α} :
    a ∈ (d.pivot all [s]).before ↔ a ∈ all ∧ d.orderedBefore a s := by
  simp [pivot, orderedBeforeAny]

theorem mem_after {all : List α} {b s : α} :
    b ∈ (d.pivot all [s]).after ↔ b ∈ all ∧ d.orderedBefore s b := by
  simp only [pivot, orderedBeforeAny, orderedAfterAny, List.mem_filter, List.any_cons, List.any_nil,
    Bool.or_false, Bool.and_eq_true, Bool.not_eq_true']
  constructor
  · rintro ⟨hb, -, hsb⟩
    exact ⟨hb, hsb⟩
  · rintro ⟨hb, hsb⟩
    refine ⟨hb, ?_, hsb⟩
    rw [← Bool.not_eq_true]
    exact not_orderedBefore_symm hsb

theorem mem_nonMergeable {A B : List α} {i j : ℕ} :
    (i, j) ∈ d.nonMergeable A B ↔ ∃ a ∈ A, ∃ b ∈ B, d.getSCCIndex a = i ∧ d.getSCCIndex b = j := by
  simp [nonMergeable]

/-- Why two components are not mergeable: a bad component is between them, or two components that are
not compatible. -/
def Conflicting (d : SCCDAG α) (incompat : α → α → Bool) (good bad : List α) (a b : α) : Prop :=
  (∃ s ∈ bad, d.orderedBefore a s ∧ d.orderedBefore s b) ∨
    ∃ scc1 ∈ good, ∃ scc2 ∈ good, incompat scc1 scc2 ∧
      (a = scc1 ∨ d.orderedBefore a scc1) ∧ (b = scc2 ∨ d.orderedBefore scc2 b)

section Pairs

variable {incompat : α → α → Bool} {good bad : List α}

theorem mem_rule1 {i j : ℕ} :
    (i, j) ∈ d.rule1 good bad ↔ ∃ a ∈ good, ∃ b ∈ good, d.getSCCIndex a = i ∧ d.getSCCIndex b = j ∧
      ∃ s ∈ bad, d.orderedBefore a s ∧ d.orderedBefore s b := by
  rw [rule1, List.mem_flatMap]
  constructor
  · rintro ⟨s, hs, hmem⟩
    obtain ⟨a, ha, b, hb, hi, hj⟩ := mem_nonMergeable.1 hmem
    rw [mem_before] at ha
    rw [mem_after] at hb
    exact ⟨a, ha.1, b, hb.1, hi, hj, s, hs, ha.2, hb.2⟩
  · rintro ⟨a, ha, b, hb, hi, hj, s, hs, has, hsb⟩
    exact ⟨s, hs, mem_nonMergeable.2 ⟨a, mem_before.2 ⟨ha, has⟩, b, mem_after.2 ⟨hb, hsb⟩, hi, hj⟩⟩

theorem mem_rule2 {i j : ℕ} :
    (i, j) ∈ d.rule2 incompat good ↔ ∃ a ∈ good, ∃ b ∈ good,
      d.getSCCIndex a = i ∧ d.getSCCIndex b = j ∧ ∃ scc1 ∈ good, ∃ scc2 ∈ good, incompat scc1 scc2 ∧
        (a = scc1 ∨ d.orderedBefore a scc1) ∧ (b = scc2 ∨ d.orderedBefore scc2 b) := by
  simp only [rule2, List.mem_flatMap]
  constructor
  · rintro ⟨scc1, h1, scc2, h2, hmem⟩
    split_ifs at hmem with hinc
    · obtain ⟨a, ha, b, hb, hi, hj⟩ := mem_nonMergeable.1 hmem
      rw [List.mem_append, mem_before, List.mem_singleton] at ha
      rw [List.mem_append, mem_after, List.mem_singleton] at hb
      refine ⟨a, ?_, b, ?_, hi, hj, scc1, h1, scc2, h2, hinc, ?_, ?_⟩
      · rcases ha with ha | rfl
        · exact ha.1
        · exact h1
      · rcases hb with hb | rfl
        · exact hb.1
        · exact h2
      · exact ha.symm.imp_right And.right
      · exact hb.symm.imp_right And.right
    · exact absurd hmem List.not_mem_nil
  · rintro ⟨a, ha, b, hb, hi, hj, scc1, h1, scc2, h2, hinc, ha1, hb2⟩
    refine ⟨scc1, h1, scc2, h2, ?_⟩
    rw [if_pos hinc, mem_nonMergeable]
    refine ⟨a, ?_, b, ?_, hi, hj⟩
    · rw [List.mem_append, mem_before, List.mem_singleton]
      exact ha1.symm.imp_left fun h => ⟨ha, h⟩
    · rw [List.mem_append, mem_after, List.mem_singleton]
      exact hb2.symm.imp_left fun h => ⟨hb, h⟩

theorem mem_pairs {i j : ℕ} :
    (i, j) ∈ d.rule1 good bad ++ d.rule2 incompat good ↔
      ∃ a ∈ good, ∃ b ∈ good, d.getSCCIndex a = i ∧ d.getSCCIndex b = j ∧
        d.Conflicting incompat good bad a b := by
  rw [List.mem_append, mem_rule1, mem_rule2]
  constructor
  · rintro (⟨a, ha, b, hb, hi, hj, hc⟩ | ⟨a, ha, b, hb, hi, hj, hc⟩)
    · exact ⟨a, ha, b, hb, hi, hj, Or.inl hc⟩
    · exact ⟨a, ha, b, hb, hi, hj, Or.inr hc⟩
  · rintro ⟨a, ha, b, hb, hi, hj, hc | hc⟩
    · exact Or.inl ⟨a, ha, b, hb, hi, hj, hc⟩
    · exact Or.inr ⟨a, ha, b, hb, hi, hj, hc⟩

/-- Conflicts are closed under predecessors of the first component. -/
theorem Conflicting.before {a a' b : α} (h : d.Conflicting incompat good bad a b)
    (ha : d.orderedBefore a' a) : d.Conflicting incompat good bad a' b := by
  rcases h with ⟨s, hs, has, hsb⟩ | ⟨scc1, h1, scc2, h2, hinc, ha1, hb2⟩
  · exact Or.inl ⟨s, hs, orderedBefore_trans ha has, hsb⟩
  · refine Or.inr ⟨scc1, h1, scc2, h2, hinc, Or.inr ?_, hb2⟩
    rcases ha1 with rfl | ha1
    · exact ha
    · exact orderedBefore_trans ha ha1

theorem Conflicting.after {a b b' : α} (h : d.Conflicting incompat good bad a b)
    (hb : d.orderedBefore b b') : d.Conflicting incompat good bad a b' := by
  rcases h with ⟨s, hs, has, hsb⟩ | ⟨scc1, h1, scc2, h2, hinc, ha1, hb2⟩
  · exact Or.inl ⟨s, hs, has, orderedBefore_trans hsb hb⟩
  · refine Or.inr ⟨scc1, h1, scc2, h2, hinc, ha1, Or.inr ?_⟩
    rcases hb2 with rfl | hb2
    · exact hb
    · exact orderedBefore_trans hb2 hb

end Pairs

/-! ### The network -/

def weightAt (d : SCCDAG α) (weight : α → UInt64) (good : List α) (i : ℕ) : UInt64 :=
  match good.find? fun scc => d.getSCCIndex scc = i with
  | some scc => 1 + 100 * weight scc
  | none => 1

theorem weightAt_index {weight : α → UInt64} {good : List α} {a : α}
    (hgood : ∀ b ∈ good, b ∈ d.nodes) (ha : a ∈ good) :
    d.weightAt weight good (d.getSCCIndex a) = 1 + 100 * weight a := by
  rw [weightAt]
  cases hfind : good.find? fun scc => d.getSCCIndex scc = d.getSCCIndex a with
  | none => simpa using List.find?_eq_none.1 hfind a ha
  | some b =>
      have hb := List.mem_of_find?_eq_some hfind
      have heq : d.getSCCIndex b = d.getSCCIndex a := by simpa using List.find?_some hfind
      rw [d.index_inj b (hgood b hb) a (hgood a ha) heq]

/-- A weight is odd, so it is not 0; and it is not the number without a bound, as an even number is
not 1 less than 0. -/
theorem weight_ne (x : UInt64) : 1 + 100 * x ≠ 0 ∧ 1 + 100 * x ≠ Graph.infinity := by
  constructor
  · intro h
    have h' := congrArg UInt64.toNat h
    rw [UInt64.toNat_add, UInt64.toNat_mul] at h'
    change (1 + 100 * x.toNat % 2 ^ 64) % 2 ^ 64 = 0 at h'
    omega
  · intro h
    have h' := congrArg UInt64.toNat h
    rw [UInt64.toNat_add, UInt64.toNat_mul] at h'
    change (1 + 100 * x.toNat % 2 ^ 64) % 2 ^ 64 = 2 ^ 64 - 1 at h'
    omega

theorem weightAt_ne (weight : α → UInt64) (good : List α) (i : ℕ) :
    d.weightAt weight good i ≠ 0 ∧ d.weightAt weight good i ≠ Graph.infinity := by
  rw [weightAt]
  split
  · exact weight_ne _
  · exact ⟨by decide, by decide⟩

def conflicts (d : SCCDAG α) (weight : α → UInt64) (incompat : α → α → Bool) (good bad : List α) :
    Graph.Conflicts where
  items := good.map d.getSCCIndex
  weight := d.weightAt weight good
  pairs := d.rule1 good bad ++ d.rule2 incompat good
  mem := by
    rintro ⟨i, j⟩ hp
    obtain ⟨a, ha, b, hb, rfl, rfl, -⟩ := mem_pairs.1 hp
    exact ⟨List.mem_map_of_mem ha, List.mem_map_of_mem hb⟩
  pos i _ := (weightAt_ne weight good i).1
  finite i _ := (weightAt_ne weight good i).2

theorem flowNetwork_eq {weight : α → UInt64} {incompat : α → α → Bool} {good bad : List α}
    (hgood : ∀ b ∈ good, b ∈ d.nodes) :
    d.flowNetwork weight incompat good bad = (d.conflicts weight incompat good bad).network := by
  rw [flowNetwork, Graph.Conflicts.network, Graph.Conflicts.entries]
  congr 2
  simp only [conflicts, List.flatMap_map]
  apply List.flatMap_congr
  intro a ha
  rw [goodEdges, weightAt_index hgood ha]

/-! ### The chosen components -/

section Chosen

variable {weight : α → UInt64} {pred : α → Bool} {incompat : α → α → Bool}

theorem mem_nodes_of_filter {a : α} (h : a ∈ d.nodes.filter pred) : a ∈ d.nodes :=
  (List.mem_filter.1 h).1

def allConflicts (d : SCCDAG α) (weight : α → UInt64) (pred : α → Bool) (incompat : α → α → Bool) :
    Graph.Conflicts :=
  d.conflicts weight incompat (d.nodes.filter pred) (d.nodes.filter fun scc => !pred scc)

theorem mem_allConflicts {a b : α} (ha : a ∈ d.nodes.filter pred) (hb : b ∈ d.nodes.filter pred) :
    (d.getSCCIndex a, d.getSCCIndex b) ∈ (d.allConflicts weight pred incompat).pairs ↔
      d.Conflicting incompat (d.nodes.filter pred) (d.nodes.filter fun scc => !pred scc) a b := by
  change _ ∈ d.rule1 _ _ ++ d.rule2 _ _ ↔ _
  rw [mem_pairs]
  constructor
  · rintro ⟨a', ha', b', hb', hia, hib, hc⟩
    rw [d.index_inj a' (mem_nodes_of_filter ha') a (mem_nodes_of_filter ha) hia,
      d.index_inj b' (mem_nodes_of_filter hb') b (mem_nodes_of_filter hb) hib] at hc
    exact hc
  · intro hc
    exact ⟨a, ha, b, hb, rfl, rfl, hc⟩

variable {f : ℕ × ℕ → ℕ} {S : Set ℕ} {cut : List ℕ} {sel : List α}

theorem not_conflicting (hmin : Graph.IsMinCut (d.allConflicts weight pred incompat).network f S cut)
    (hsel : ∀ a, a ∈ sel ↔ a ∈ d.nodes.filter pred ∧ Graph.Conflicts.Kept cut (d.getSCCIndex a))
    {a b : α} (ha : a ∈ sel) (hb : b ∈ sel) :
    ¬ d.Conflicting incompat (d.nodes.filter pred) (d.nodes.filter fun scc => !pred scc) a b := by
  intro hc
  obtain ⟨hga, hka⟩ := (hsel a).1 ha
  obtain ⟨hgb, hkb⟩ := (hsel b).1 hb
  exact Graph.Conflicts.not_kept_pair hmin ((mem_allConflicts hga hgb).2 hc) ⟨hka, hkb⟩

/-- What is between two chosen components is chosen. -/
theorem mem_of_between (hmin : Graph.IsMinCut (d.allConflicts weight pred incompat).network f S cut)
    (hsel : ∀ a, a ∈ sel ↔ a ∈ d.nodes.filter pred ∧ Graph.Conflicts.Kept cut (d.getSCCIndex a))
    {a k b : α} (ha : a ∈ sel) (hb : b ∈ sel) (hak : d.orderedBefore a k)
    (hkb : d.orderedBefore k b) : k ∈ sel := by
  have hnode := (mem_of_orderedBefore hak).2
  obtain ⟨hga, hka⟩ := (hsel a).1 ha
  obtain ⟨hgb, hkb'⟩ := (hsel b).1 hb
  cases hpred : pred k with
  | false =>
      have hbad : k ∈ d.nodes.filter fun scc => !pred scc :=
        List.mem_filter.2 ⟨hnode, by simp [hpred]⟩
      exact absurd (Or.inl ⟨k, hbad, hak, hkb⟩) (not_conflicting hmin hsel ha hb)
  | true =>
      have hgood : k ∈ d.nodes.filter pred := List.mem_filter.2 ⟨hnode, hpred⟩
      refine (hsel k).2 ⟨hgood, ?_⟩
      have hitem : ∀ x ∈ d.nodes.filter pred,
          d.getSCCIndex x ∈ (d.allConflicts weight pred incompat).items :=
        fun x hx => List.mem_map_of_mem hx
      -- The conflicts of `k` are conflicts of `a`, and those with `k` are conflicts with `b`.
      apply Graph.Conflicts.kept_between hmin (hitem a hga) (hitem k hgood) (hitem b hgb) _ _ hka hkb'
      · intro m hm
        obtain ⟨x, hx, rfl⟩ := List.mem_map.1 ((d.allConflicts weight pred incompat).mem _ hm).2
        exact (mem_allConflicts hga hx).2 (((mem_allConflicts hgood hx).1 hm).before hak)
      · intro l hl
        obtain ⟨x, hx, rfl⟩ := List.mem_map.1 ((d.allConflicts weight pred incompat).mem _ hl).1
        exact (mem_allConflicts hx hgb).2 (((mem_allConflicts hx hgood).1 hl).after hkb)

variable [DecidableEq α] {fuel : ℕ}

/-- What the code returns: the good components that a minimum cut leaves, if there are any. -/
theorem findMaxGoodStage_spec {r : Option (List α × List α)}
    (h : d.findMaxGoodStage fuel d.nodes weight pred incompat = .ok r) :
    (d.nodes.filter pred = [] ∧ r = none) ∨
    ∃ f S cut, Graph.IsMinCut (d.allConflicts weight pred incompat).network f S cut ∧
      ((∀ a ∈ d.nodes.filter pred, ¬ Graph.Conflicts.Kept cut (d.getSCCIndex a)) ∧ r = none ∨
      ∃ sel, sel ≠ [] ∧ sel.Nodup ∧ r = some (sel, d.nodes.filter fun scc => scc ∉ sel) ∧
        ∀ a, a ∈ sel ↔ a ∈ d.nodes.filter pred ∧ Graph.Conflicts.Kept cut (d.getSCCIndex a)) := by
  rw [findMaxGoodStage] at h
  simp only at h
  split_ifs at h with hempty
  · cases h
    exact Or.inl ⟨List.eq_nil_of_length_eq_zero (by omega), rfl⟩
  · right
    obtain ⟨cut, hcut, h⟩ := bind_eq_ok.1 h
    rw [flowNetwork_eq fun b hb => mem_nodes_of_filter hb] at hcut
    obtain ⟨f, S, hmin⟩ := Graph.computeMinCut_spec (Graph.Conflicts.ok _) hcut
    refine ⟨f, S, cut, hmin, ?_⟩
    split_ifs at h with hnone
    · cases h
      refine Or.inl ⟨fun a ha hkept => ?_, rfl⟩
      have hmem := List.eq_nil_iff_forall_not_mem.1 (List.isEmpty_iff.1 hnone) a
      rw [List.mem_filter] at hmem
      exact hmem ⟨ha, by simpa [Graph.Conflicts.Kept] using hkept⟩
    · cases h
      refine Or.inr ⟨_, fun hnil => hnone (List.isEmpty_iff.2 hnil),
        (d.nodup.filter _).filter _, rfl, fun a => ?_⟩
      rw [List.mem_filter, Graph.Conflicts.Kept]
      simp

end Chosen

section Parallel

theorem isParallel_iff {a : α} : d.isParallel a ↔
    ∀ e ∈ d.inner a, e.outgoingInternal → e.incomingInternal → e.loopCarried = false := by
  rw [isParallel, List.all_eq_true]
  apply forall₂_congr
  rintro ⟨o, i, l⟩ -
  cases o <;> cases i <;> cases l <;> simp

variable [DecidableEq α] {weight : α → UInt64} {fuel : ℕ} {sel rej : List α}

theorem incompat_of_edge {e : SCCEdge α} (he : e ∈ d.edges) (hlc : e.loopCarried) :
    d.loopCarriedBetweenSCCs e.outgoing e.incoming ∧ d.loopCarriedBetweenSCCs e.incoming e.outgoing := by
  simp only [loopCarriedBetweenSCCs, Bool.or_eq_true, List.any_eq_true, Bool.and_eq_true,
    decide_eq_true_eq]
  exact ⟨Or.inr ⟨e, he, ⟨rfl, rfl⟩, hlc⟩, Or.inl ⟨e, he, ⟨rfl, rfl⟩, hlc⟩⟩

/-- The chosen components are a convex set, and the rejected ones are the others. -/
theorem findMaxParallelStage_convex (h : d.findMaxParallelStage fuel weight = .ok (some (sel, rej))) :
    sel.Nodup ∧ (∀ a ∈ sel, a ∈ d.nodes) ∧
      (∀ a ∈ sel, ∀ b ∈ sel, ∀ k, d.orderedBefore a k → d.orderedBefore k b → k ∈ sel) ∧
      rej = d.nodes.filter fun scc => scc ∉ sel := by
  rcases findMaxGoodStage_spec h with ⟨-, hnone⟩ | ⟨f, S, cut, hmin, ⟨-, hnone⟩ | ⟨sel', -, hnd, hr, hsel⟩⟩
  · cases hnone
  · cases hnone
  · cases hr
    refine ⟨hnd, fun a ha => mem_nodes_of_filter ((hsel a).1 ha).1, ?_, rfl⟩
    intro a ha b hb k hak hkb
    exact mem_of_between hmin hsel ha hb hak hkb

/-- The chosen components are parallel, no loop-carried edge joins two of them, every component on a
path between two of them is chosen; and what is rejected is the rest. -/
theorem parallel_stage_sound (d : SCCDAG α) (weight : α → UInt64) (fuel : ℕ) (sel rej : List α)
    (h : d.findMaxParallelStage fuel weight = .ok (some (sel, rej))) :
    (∀ a ∈ sel, a ∈ d.nodes ∧
      ∀ e ∈ d.inner a, e.outgoingInternal → e.incomingInternal → e.loopCarried = false) ∧
    (∀ e ∈ d.edges, e.outgoing ∈ sel → e.incoming ∈ sel → e.loopCarried = false) ∧
    (∀ a ∈ sel, ∀ b ∈ sel, ∀ k, Relation.TransGen (EdgeRel d.edges) a k →
      Relation.TransGen (EdgeRel d.edges) k b → k ∈ sel) ∧
    ∀ a, a ∈ rej ↔ a ∈ d.nodes ∧ a ∉ sel := by
  rcases findMaxGoodStage_spec h with ⟨-, hnone⟩ | ⟨f, S, cut, hmin, ⟨-, hnone⟩ | ⟨sel', -, -, hr, hsel⟩⟩
  · cases hnone
  · cases hnone
  · cases hr
    refine ⟨?_, ?_, ?_, ?_⟩
    · intro a ha
      obtain ⟨hnode, hpar⟩ := List.mem_filter.1 ((hsel a).1 ha).1
      exact ⟨hnode, isParallel_iff.1 hpar⟩
    · intro e he ho hi
      by_contra hlc
      have hinc := (incompat_of_edge he (Bool.eq_true_of_not_eq_false hlc)).1
      exact not_conflicting hmin hsel ho hi (Or.inr ⟨e.outgoing, ((hsel _).1 ho).1, e.incoming,
        ((hsel _).1 hi).1, hinc, Or.inl rfl, Or.inl rfl⟩)
    · intro a ha b hb k hak hkb
      exact mem_of_between hmin hsel ha hb ((d.ordered a k).2 hak) ((d.ordered k b).2 hkb)
    · intro a
      simp

/-- Two components and an edge between them, which is loop-carried if `joined`; `inner` says which of
them have a loop-carried dependence of their own. -/
def twoInARow (joined : Bool) (inner : Fin 2 → Bool) : SCCDAG (Fin 2) where
  nodes := [0, 1]
  edges := [⟨0, 1, joined⟩]
  inner a := [⟨true, true, inner a⟩]
  getSCCIndex a := a
  orderedBefore a b := a < b
  nodup := by decide
  index_inj _ _ _ _ h := Fin.ext h
  index_lt a _ := by omega
  counted := (by decide : 1 < 2 ^ 32 - 1)
  ends := by simp
  ordered a b := by
    rw [decide_eq_true_eq]
    constructor
    · intro h
      have hcases : a = 0 ∧ b = 1 := by
        revert a b
        decide
      obtain ⟨rfl, rfl⟩ := hcases
      exact .single ⟨⟨0, 1, joined⟩, List.mem_singleton_self _, rfl, rfl⟩
    · intro h
      apply transGen_lt _ h
      simp
  acyclic a h := by
    have hlt : a < a := by
      apply transGen_lt _ h
      simp
    exact lt_irrefl a hlt

/-- Three components in a row; the last one is not parallel. -/
def threeInARow : SCCDAG (Fin 3) where
  nodes := [0, 1, 2]
  edges := [⟨0, 1, false⟩, ⟨1, 2, true⟩]
  inner a := [⟨true, true, a = 2⟩]
  getSCCIndex a := a
  orderedBefore a b := a < b
  nodup := by decide
  index_inj _ _ _ _ h := Fin.ext h
  index_lt a _ := by omega
  counted := by decide
  ends := by decide
  ordered a b := by
    rw [decide_eq_true_eq]
    have h01 : Relation.TransGen (EdgeRel [⟨0, 1, false⟩, ⟨1, 2, true⟩]) (0 : Fin 3) 1 :=
      .single ⟨⟨0, 1, false⟩, by decide, rfl, rfl⟩
    have h12 : Relation.TransGen (EdgeRel [⟨0, 1, false⟩, ⟨1, 2, true⟩]) (1 : Fin 3) 2 :=
      .single ⟨⟨1, 2, true⟩, by decide, rfl, rfl⟩
    constructor
    · intro h
      have hcases : (a = 0 ∧ b = 1) ∨ (a = 0 ∧ b = 2) ∨ (a = 1 ∧ b = 2) := by
        revert a b
        decide
      rcases hcases with ⟨rfl, rfl⟩ | ⟨rfl, rfl⟩ | ⟨rfl, rfl⟩
      · exact h01
      · exact h01.trans h12
      · exact h12
    · intro h
      apply transGen_lt _ h
      decide
  acyclic a h := by
    have hlt : a < a := by
      apply transGen_lt _ h
      decide
    exact lt_irrefl a hlt

theorem parallel_stage_sound_threeInARow :
    threeInARow.findMaxParallelStage 20 (fun _ => 0) = .ok (some ([0, 1], [2])) ∧
      ∀ a, a ∈ [(2 : Fin 3)] ↔ a ∈ threeInARow.nodes ∧ a ∉ [(0 : Fin 3), 1] := by
  have hresult : threeInARow.findMaxParallelStage 20 (fun _ => 0) = .ok (some ([0, 1], [2])) := by
    decide +kernel
  exact ⟨hresult, (parallel_stage_sound threeInARow (fun _ => 0) 20 [0, 1] [2] hresult).2.2.2⟩

end Parallel

end Cpf.Pipeline.SCCDAG
