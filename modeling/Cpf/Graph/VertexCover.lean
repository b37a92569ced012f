import Cpf.Graph.KeptWeight

/-!
# The minimum cut as a vertex cover

Read as copies of items, the vertices of a minimum cut of a network of conflicts are those of a
vertex cover of the edges between the copies, and no cover weighs less. The weight is the value of
a maximum flow.
-/

namespace Cpf.Graph.Conflicts

open Finset

variable {c : Conflicts} {f : ℕ × ℕ → ℕ} {S : Set ℕ} {cut : List ℕ}

/-- Every edge between copies has an end in `C`. -/
def Covers (c : Conflicts) (C : Set ℕ) : Prop := ∀ p ∈ c.pairs, left p.1 ∈ C ∨ right p.2 ∈ C

def coverWeight (c : Conflicts) (C : Set ℕ) [DecidablePred (· ∈ C)] : ℕ :=
  ∑ i ∈ c.items.toFinset, ((if left i ∈ C then (c.weight i).toNat else 0) +
    (if right i ∈ C then (c.weight i).toNat else 0))

def ends (cut : List ℕ) : Set ℕ := {x | x ∈ cut}

instance (cut : List ℕ) : DecidablePred (· ∈ ends cut) := fun x =>
  inferInstanceAs (Decidable (x ∈ cut))

theorem covers_ends (h : IsMinCut c.network f S cut) : c.Covers (ends cut) := by
  rintro ⟨i, j⟩ hp
  obtain ⟨hi, hj⟩ := c.mem _ hp
  change left i ∈ cut ∨ right j ∈ cut
  rw [left_mem_cut h hi, right_mem_cut h hj]
  by_cases hl : left i ∈ S
  · exact .inr (right_mem h hp hl)
  · exact .inl hl

theorem coverWeight_ends (h : IsMinCut c.network f S cut) [DecidablePred (· ∈ S)] :
    c.coverWeight (ends cut) = c.cutWeight S := by
  refine sum_congr rfl (fun i hi => ?_)
  have hmem := List.mem_toFinset.1 hi
  have hleft : left i ∈ ends cut ↔ left i ∉ S := left_mem_cut h hmem
  have hright : right i ∈ ends cut ↔ right i ∈ S := right_mem_cut h hmem
  simp only [hleft, hright, ite_not]

/-- The cut that belongs to a cover: the left copies outside of it and the right copies in it are
on the side of the source. -/
def sideOf (C : Set ℕ) : Set ℕ :=
  {x | x = source ∨ (∃ i, x = left i ∧ left i ∉ C) ∨ ∃ i, x = right i ∧ right i ∈ C}

theorem left_mem_sideOf {C : Set ℕ} {i : ℕ} : left i ∈ sideOf C ↔ left i ∉ C := by
  constructor
  · rintro (heq | ⟨j, heq, hj⟩ | ⟨j, heq, -⟩)
    · exact absurd heq (left_ne_source i)
    · rwa [heq]
    · exact absurd heq (left_ne_right i j)
  · exact fun hi => .inr (.inl ⟨i, rfl, hi⟩)

theorem right_mem_sideOf {C : Set ℕ} {i : ℕ} : right i ∈ sideOf C ↔ right i ∈ C := by
  constructor
  · rintro (heq | ⟨j, heq, -⟩ | ⟨j, heq, hj⟩)
    · exact absurd heq (right_ne_source i)
    · exact absurd heq.symm (left_ne_right j i)
    · rwa [heq]
  · exact fun hi => .inr (.inr ⟨i, rfl, hi⟩)

theorem sink_not_mem_sideOf {C : Set ℕ} : sink ∉ sideOf C := by
  rintro (heq | ⟨j, heq, -⟩ | ⟨j, heq, -⟩)
  · exact absurd heq (by decide)
  · exact left_ne_sink j heq.symm
  · exact right_ne_sink j heq.symm

theorem excess_le_coverWeight (hf : IsFlow c.network.edges c.network.bound source sink f)
    {C : Set ℕ} [DecidablePred (· ∈ C)] (hC : c.Covers C) :
    excess c.network.edges f source ≤ c.coverWeight C := by
  classical
  have hclosed : ∀ p ∈ c.pairs, left p.1 ∈ sideOf C → right p.2 ∈ sideOf C := by
    intro p hp hl
    rw [right_mem_sideOf]
    exact (hC p hp).resolve_left (left_mem_sideOf.1 hl)
  have hcut := excess_le_cutWeight hf (.inl rfl) sink_not_mem_sideOf hclosed
  have hweight : c.cutWeight (sideOf C) = c.coverWeight C := by
    refine sum_congr rfl (fun i _ => ?_)
    simp only [left_mem_sideOf, right_mem_sideOf, ite_not]
  rwa [hweight] at hcut

/-- `computeMinCut` ends, and the copies of items in its result are a vertex cover of least weight,
which is the value of a maximum flow. -/
theorem computeMinCut_cover (c : Conflicts) : ∃ enough, ∀ fuel ≥ enough, ∃ cut,
    computeMinCut fuel c.network = .ok cut ∧ c.Covers (ends cut) ∧
    (∀ (C : Set ℕ) [DecidablePred (· ∈ C)], c.Covers C →
      c.coverWeight (ends cut) ≤ c.coverWeight C) ∧
    (∃ f, IsFlow c.network.edges c.network.bound source sink f ∧
      excess c.network.edges f source = c.coverWeight (ends cut)) ∧
    ∀ f, IsFlow c.network.edges c.network.bound source sink f →
      excess c.network.edges f source ≤ c.coverWeight (ends cut) := by
  classical
  refine ⟨c.network.enough, fun fuel hfuel => ?_⟩
  obtain ⟨cut, hcut⟩ := computeMinCut_total c.ok hfuel
  obtain ⟨f, S, h⟩ := computeMinCut_spec c.ok hcut
  have hvalue : excess c.network.edges f source = c.coverWeight (ends cut) := by
    rw [excess_eq_cutWeight h, coverWeight_ends h]
  refine ⟨cut, hcut, covers_ends h, fun C _ hC => ?_, ⟨f, h.isFlow, hvalue⟩, fun f' hf' => ?_⟩
  · have hle := excess_le_coverWeight h.isFlow hC
    rw [hvalue] at hle
    exact_mod_cast hle
  · exact excess_le_coverWeight hf' (covers_ends h)

end Cpf.Graph.Conflicts
