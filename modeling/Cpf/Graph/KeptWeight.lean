import Cpf.Graph.Conflict

/-!
# The weight of what is kept

If the conflicts are transitive, no item has both its copies in the cut, so that the weight of the
cut is the weight of the items that are not kept. Every set of items without conflicts gives
another cut; the kept items therefore weigh at least as much.
-/

namespace Cpf.Graph.Conflicts

open Finset

variable {c : Conflicts} {f : ℕ × ℕ → ℕ} {S : Set ℕ} {cut : List ℕ}

/-- The weight of the edges at the source and at the sink that cross a cut. -/
def cutWeight (c : Conflicts) (T : Set ℕ) [DecidablePred (· ∈ T)] : ℕ :=
  ∑ i ∈ c.items.toFinset, ((if left i ∈ T then 0 else (c.weight i).toNat) +
    (if right i ∈ T then (c.weight i).toNat else 0))

theorem edges_eq (c : Conflicts) :
    c.network.edges = c.items.toFinset.image (fun i => (source, left i)) ∪
      (c.items.toFinset.image (fun i => (right i, sink)) ∪
        c.pairs.toFinset.image (fun p => (left p.1, right p.2))) := by
  ext ⟨v, w⟩
  rw [edge_iff, mem_adj, mem_union, mem_union, mem_image, mem_image, mem_image]
  simp only [List.mem_toFinset, Prod.mk.injEq, eq_comm]

/-- A sum over the edges, by the three kinds of edges. -/
theorem sum_edges (c : Conflicts) (F : ℕ × ℕ → ℤ) :
    ∑ e ∈ c.network.edges, F e = ∑ i ∈ c.items.toFinset, F (source, left i) +
      (∑ i ∈ c.items.toFinset, F (right i, sink) +
        ∑ p ∈ c.pairs.toFinset, F (left p.1, right p.2)) := by
  rw [edges_eq, sum_union, sum_union, sum_image, sum_image, sum_image]
  · rintro ⟨i, j⟩ - ⟨i', j'⟩ - heq
    obtain ⟨h1, h2⟩ := Prod.mk.inj heq
    exact Prod.ext (left_inj.1 h1) (right_inj.1 h2)
  · intro i _ j _ heq
    exact right_inj.1 (Prod.mk.inj heq).1
  · intro i _ j _ heq
    exact left_inj.1 (Prod.mk.inj heq).2
  · rw [disjoint_left]
    intro e h1 h2
    obtain ⟨i, -, rfl⟩ := mem_image.1 h1
    obtain ⟨p, -, heq⟩ := mem_image.1 h2
    exact left_ne_right p.1 i (Prod.mk.inj heq).1
  · rw [disjoint_left]
    intro e h1 h2
    obtain ⟨i, -, rfl⟩ := mem_image.1 h1
    rcases mem_union.1 h2 with h2 | h2
    · obtain ⟨j, -, heq⟩ := mem_image.1 h2
      exact right_ne_source j (Prod.mk.inj heq).1
    · obtain ⟨p, -, heq⟩ := mem_image.1 h2
      exact left_ne_source p.1 (Prod.mk.inj heq).1

theorem excess_eq (hf : IsFlow c.network.edges c.network.bound source sink f) {T : Set ℕ}
    [DecidablePred (· ∈ T)] (hs : source ∈ T) (ht : sink ∉ T) :
    excess c.network.edges f source =
      ∑ i ∈ c.items.toFinset, (f (source, left i) : ℤ) * (if left i ∈ T then 0 else 1) +
      (∑ i ∈ c.items.toFinset, (f (right i, sink) : ℤ) * (if right i ∈ T then 1 else 0) +
        ∑ p ∈ c.pairs.toFinset, (f (left p.1, right p.2) : ℤ) *
          ((if left p.1 ∈ T then 1 else 0) - (if right p.2 ∈ T then 1 else 0))) := by
  rw [hf.excess_source hs ht, sum_edges]
  simp only [hs, ht, if_true, if_false, sub_zero]
  congr 1
  apply sum_congr rfl
  intro i _
  split_ifs
  · simp
  · simp

theorem excess_le_cutWeight (hf : IsFlow c.network.edges c.network.bound source sink f) {T : Set ℕ}
    [DecidablePred (· ∈ T)] (hs : source ∈ T) (ht : sink ∉ T)
    (hclosed : ∀ p ∈ c.pairs, left p.1 ∈ T → right p.2 ∈ T) :
    excess c.network.edges f source ≤ c.cutWeight T := by
  rw [excess_eq hf hs ht, cutWeight, sum_add_distrib]
  push_cast
  have hleft : ∀ i ∈ c.items.toFinset, (f (source, left i) : ℤ) * (if left i ∈ T then 0 else 1) ≤
      if left i ∈ T then 0 else ((c.weight i).toNat : ℤ) := by
    intro i hi
    have hmem := List.mem_toFinset.1 hi
    have hle := hf.le_cap _ (edge_iff.2 (source_left hmem))
    rw [bound_source hmem] at hle
    have hle' := Nat.cast_le.1 hle
    split_ifs
    · simp
    · simpa using hle'
  have hright : ∀ i ∈ c.items.toFinset, (f (right i, sink) : ℤ) * (if right i ∈ T then 1 else 0) ≤
      if right i ∈ T then ((c.weight i).toNat : ℤ) else 0 := by
    intro i hi
    have hmem := List.mem_toFinset.1 hi
    have hle := hf.le_cap _ (edge_iff.2 (right_sink hmem))
    rw [bound_sink hmem] at hle
    have hle' := Nat.cast_le.1 hle
    split_ifs
    · simpa using hle'
    · simp
  have hpairs : ∑ p ∈ c.pairs.toFinset, (f (left p.1, right p.2) : ℤ) *
      ((if left p.1 ∈ T then 1 else 0) - (if right p.2 ∈ T then 1 else 0)) ≤ 0 := by
    apply sum_nonpos
    intro p hp
    have himp := hclosed p (List.mem_toFinset.1 hp)
    split_ifs with h1 h2
    · simp
    · exact absurd (himp h1) h2
    · simp
    · simp
  have h1 := sum_le_sum hleft
  have h2 := sum_le_sum hright
  linarith

theorem excess_eq_cutWeight (h : IsMinCut c.network f S cut) [DecidablePred (· ∈ S)] :
    excess c.network.edges f source = c.cutWeight S := by
  rw [excess_eq h.isFlow h.source h.sink, cutWeight, sum_add_distrib]
  push_cast
  have hleft : ∀ i ∈ c.items.toFinset, (f (source, left i) : ℤ) * (if left i ∈ S then 0 else 1) =
      if left i ∈ S then 0 else ((c.weight i).toNat : ℤ) := by
    intro i hi
    have hmem := List.mem_toFinset.1 hi
    split_ifs with hS
    · simp
    · have hfull := h.forward _ _ (source_left hmem) h.source hS
      rw [bound_source hmem] at hfull
      rw [Nat.cast_inj.1 hfull, mul_one]
  have hright : ∀ i ∈ c.items.toFinset, (f (right i, sink) : ℤ) * (if right i ∈ S then 1 else 0) =
      if right i ∈ S then ((c.weight i).toNat : ℤ) else 0 := by
    intro i hi
    have hmem := List.mem_toFinset.1 hi
    split_ifs with hS
    · have hfull := h.forward _ _ (right_sink hmem) hS h.sink
      rw [bound_sink hmem] at hfull
      rw [Nat.cast_inj.1 hfull, mul_one]
    · simp
  have hpairs : ∑ p ∈ c.pairs.toFinset, (f (left p.1, right p.2) : ℤ) *
      ((if left p.1 ∈ S then 1 else 0) - (if right p.2 ∈ S then 1 else 0)) = 0 := by
    apply sum_eq_zero
    rintro ⟨i, j⟩ hp
    have hmem := List.mem_toFinset.1 hp
    have himp := right_mem h hmem
    split_ifs with h1 h2 h2
    · simp
    · exact absurd (himp h1) h2
    · rw [h.backward _ _ (left_right hmem) h1 h2]
      simp
    · simp
  rw [sum_congr rfl hleft, sum_congr rfl hright, hpairs, add_zero]

def weightOf (c : Conflicts) (F : Finset ℕ) : ℕ := ∑ i ∈ F, (c.weight i).toNat

/-- A cut that has one copy of every item outside of a set. -/
theorem cutWeight_eq {T : Set ℕ} [DecidablePred (· ∈ T)] {F : Finset ℕ}
    (hF : F ⊆ c.items.toFinset)
    (hin : ∀ i ∈ F, left i ∈ T ∧ right i ∉ T)
    (hout : ∀ i ∈ c.items, i ∉ F → (left i ∈ T ↔ right i ∈ T)) :
    c.cutWeight T + c.weightOf F = c.weightOf c.items.toFinset := by
  rw [cutWeight, weightOf, weightOf, ← sum_sdiff hF]
  rw [← sum_sdiff hF (f := fun i => (c.weight i).toNat)]
  have hzero : ∑ i ∈ F, ((if left i ∈ T then 0 else (c.weight i).toNat) +
      (if right i ∈ T then (c.weight i).toNat else 0)) = 0 := by
    apply sum_eq_zero
    intro i hi
    rw [if_pos (hin i hi).1, if_neg (hin i hi).2, add_zero]
  have hrest : ∑ i ∈ c.items.toFinset \ F, ((if left i ∈ T then 0 else (c.weight i).toNat) +
      (if right i ∈ T then (c.weight i).toNat else 0)) =
      ∑ i ∈ c.items.toFinset \ F, (c.weight i).toNat := by
    apply sum_congr rfl
    intro i hi
    obtain ⟨hmem, hnot⟩ := mem_sdiff.1 hi
    have hiff := hout i (List.mem_toFinset.1 hmem) hnot
    by_cases hT : left i ∈ T
    · rw [if_pos hT, if_pos (hiff.1 hT), zero_add]
    · rw [if_neg hT, if_neg (fun h => hT (hiff.2 h)), add_zero]
  rw [hzero, hrest, add_zero]

instance (cut : List ℕ) : DecidablePred (Kept cut) := fun i =>
  inferInstanceAs (Decidable (left i ∉ cut ∧ right i ∉ cut))

def kept (c : Conflicts) (cut : List ℕ) : Finset ℕ := c.items.toFinset.filter (Kept cut)

/-- With transitive conflicts no item has both its copies in the cut. -/
theorem left_or_right (h : IsMinCut c.network f S cut)
    (htrans : ∀ i j k, (i, j) ∈ c.pairs → (j, k) ∈ c.pairs → (i, k) ∈ c.pairs) {i : ℕ}
    (hi : i ∈ c.items) (hright : right i ∈ S) : left i ∈ S := by
  by_contra hleft
  obtain ⟨m, him, hm⟩ := exists_pair_of_left h hi hleft
  obtain ⟨l, hli, hl⟩ := exists_pair_of_right h hi hright
  exact hm (right_mem h (htrans l i m hli him) hl)

/-- Without conflicts in it, no set of items weighs more than what is kept. -/
theorem weightOf_le (h : IsMinCut c.network f S cut)
    (htrans : ∀ i j k, (i, j) ∈ c.pairs → (j, k) ∈ c.pairs → (i, k) ∈ c.pairs) {F : Finset ℕ}
    (hF : F ⊆ c.items.toFinset) (hfree : ∀ i ∈ F, ∀ j ∈ F, (i, j) ∉ c.pairs) :
    c.weightOf F ≤ c.weightOf (c.kept cut) := by
  classical
  -- The items after a member of `F` are cut at the right, the other items outside of it at the left.
  let above : ℕ → Prop := fun i => ∃ j ∈ F, (j, i) ∈ c.pairs
  let T : Set ℕ := {x | x = source ∨ (∃ i, x = left i ∧ (i ∈ F ∨ above i)) ∨
    ∃ i, x = right i ∧ above i}
  have hleft : ∀ i, left i ∈ T ↔ i ∈ F ∨ above i := by
    intro i
    constructor
    · rintro (heq | ⟨j, heq, hj⟩ | ⟨j, heq, -⟩)
      · exact absurd heq (left_ne_source i)
      · exact left_inj.1 heq ▸ hj
      · exact absurd heq (left_ne_right i j)
    · intro hi
      exact Or.inr (Or.inl ⟨i, rfl, hi⟩)
  have hright : ∀ i, right i ∈ T ↔ above i := by
    intro i
    constructor
    · rintro (heq | ⟨j, heq, -⟩ | ⟨j, heq, hj⟩)
      · exact absurd heq (right_ne_source i)
      · exact absurd heq.symm (left_ne_right j i)
      · exact right_inj.1 heq ▸ hj
    · intro hi
      exact Or.inr (Or.inr ⟨i, rfl, hi⟩)
  have hsink : sink ∉ T := by
    rintro (heq | ⟨j, heq, -⟩ | ⟨j, heq, -⟩)
    · exact absurd heq (by decide)
    · exact left_ne_sink j heq.symm
    · exact right_ne_sink j heq.symm
  have hclosed : ∀ p ∈ c.pairs, left p.1 ∈ T → right p.2 ∈ T := by
    rintro ⟨i, j⟩ hp hi
    rw [hright]
    rcases (hleft i).1 hi with hi | ⟨k, hk, hki⟩
    · exact ⟨i, hi, hp⟩
    · exact ⟨k, hk, htrans k i j hki hp⟩
  have hcut := excess_le_cutWeight h.isFlow (T := T) (Or.inl rfl) hsink hclosed
  rw [excess_eq_cutWeight h] at hcut
  have hF' : c.cutWeight T + c.weightOf F = c.weightOf c.items.toFinset := by
    apply cutWeight_eq hF
    · intro i hi
      refine ⟨(hleft i).2 (Or.inl hi), fun hmem => ?_⟩
      obtain ⟨j, hj, hji⟩ := (hright i).1 hmem
      exact hfree j hj i hi hji
    · intro i _ hnot
      rw [hleft, hright, or_iff_right hnot]
  have hkept : c.cutWeight S + c.weightOf (c.kept cut) = c.weightOf c.items.toFinset := by
    apply cutWeight_eq (Finset.filter_subset _ _)
    · intro i hi
      obtain ⟨hmem, hk⟩ := Finset.mem_filter.1 hi
      exact (kept_iff h (List.mem_toFinset.1 hmem)).1 hk
    · intro i hi hnot
      constructor
      · intro hl
        by_contra hr
        exact hnot (Finset.mem_filter.2 ⟨List.mem_toFinset.2 hi, (kept_iff h hi).2 ⟨hl, hr⟩⟩)
      · exact left_or_right h htrans hi
  have hcut' : c.cutWeight S ≤ c.cutWeight T := by exact_mod_cast hcut
  omega

end Cpf.Graph.Conflicts
