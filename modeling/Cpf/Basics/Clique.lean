import Mathlib.Tactic

/-!
# Cliques and their common neighbours

A search for cliques extends a clique `c` by one vertex at a time. Its candidates `p` and the
vertices `s` it is done with are together the common neighbours of `c`, so that `c` is maximal
exactly when both are empty, and every larger clique has its next vertex among them.
-/

namespace Cpf

variable {V : Type*} {adj : V → V → Prop} {dom : V → Prop} {c p s : List V} {v : V}
  {K : Finset V}

structure IsClique (adj : V → V → Prop) (dom : V → Prop) (K : Finset V) : Prop where
  mem : ∀ v ∈ K, dom v
  edge : ∀ u ∈ K, ∀ v ∈ K, u ≠ v → adj u v

/-- A clique that no vertex outside of it extends. -/
structure IsMaximal (adj : V → V → Prop) (dom : V → Prop) (K : Finset V) : Prop extends
    IsClique adj dom K where
  extended : ∀ v, dom v → (∀ u ∈ K, adj u v) → v ∈ K

/-- `p` and `s` are a partition of the common neighbours of the clique `c`. -/
structure Split (adj : V → V → Prop) (dom : V → Prop) (c p s : List V) : Prop where
  nodup : c.Nodup
  mem : ∀ v ∈ c, dom v
  edge : ∀ u ∈ c, ∀ v ∈ c, u ≠ v → adj u v
  candidates : p.Nodup
  apart : ∀ v ∈ p, v ∉ s
  common : ∀ v, v ∈ p ∨ v ∈ s ↔ dom v ∧ ∀ u ∈ c, adj u v

namespace Split

theorem start (hp : p.Nodup) (hdom : ∀ v, v ∈ p ↔ dom v) : Split adj dom [] p [] where
  nodup := List.nodup_nil
  mem := by simp
  edge := by simp
  candidates := hp
  apart := by simp
  common v := by simp [hdom v]

theorem not_mem_of_common (h : Split adj dom c p s) (hirrefl : ∀ v, ¬ adj v v)
    (hv : v ∈ p ∨ v ∈ s) : v ∉ c :=
  fun hc => hirrefl v (((h.common v).1 hv).2 v hc)

theorem reverse (h : Split adj dom c p s) : Split adj dom c p.reverse s where
  nodup := h.nodup
  mem := h.mem
  edge := h.edge
  candidates := List.nodup_reverse.2 h.candidates
  apart v hv := h.apart v (List.mem_reverse.1 hv)
  common v := by rw [List.mem_reverse, h.common v]

theorem next (h : Split adj dom c (v :: p) s) : Split adj dom c p (s ++ [v]) where
  nodup := h.nodup
  mem := h.mem
  edge := h.edge
  candidates := (List.nodup_cons.1 h.candidates).2
  apart u hu hs := by
    rcases List.mem_append.1 hs with hs | hs
    · exact h.apart u (List.mem_cons_of_mem v hu) hs
    · rw [List.mem_singleton] at hs
      exact (List.nodup_cons.1 h.candidates).1 (hs ▸ hu)
  common u := by
    rw [← h.common u]
    simp only [List.mem_cons, List.mem_append, List.mem_nil_iff, or_false]
    tauto

/-- The candidate at the head joins the clique; of the others its neighbours remain. -/
theorem visit (h : Split adj dom c (v :: p) s) (hsymm : ∀ u v, adj u v → adj v u)
    (hirrefl : ∀ v, ¬ adj v v) {p' s' : List V} (hp : ∀ u, u ∈ p' ↔ adj v u ∧ u ∈ v :: p)
    (hs : ∀ u, u ∈ s' ↔ adj v u ∧ u ∈ s) (hnodup : p'.Nodup) :
    Split adj dom (c ++ [v]) p' s' where
  nodup := by
    refine List.nodup_append.2 ⟨h.nodup, List.nodup_singleton v, fun u hu w hw heq => ?_⟩
    rw [List.mem_singleton.1 hw] at heq
    exact h.not_mem_of_common hirrefl (.inl List.mem_cons_self) (heq ▸ hu)
  mem u hu := by
    rcases List.mem_append.1 hu with hu | hu
    · exact h.mem u hu
    · rw [List.mem_singleton.1 hu]
      exact ((h.common v).1 (.inl List.mem_cons_self)).1
  edge u hu w hw hne := by
    have hv := ((h.common v).1 (.inl List.mem_cons_self)).2
    rcases List.mem_append.1 hu with hu | hu <;> rcases List.mem_append.1 hw with hw | hw
    · exact h.edge u hu w hw hne
    · rw [List.mem_singleton.1 hw]
      exact hv u hu
    · rw [List.mem_singleton.1 hu]
      exact hsymm w v (hv w hw)
    · exact absurd ((List.mem_singleton.1 hu).trans (List.mem_singleton.1 hw).symm) hne
  candidates := hnodup
  apart u hu hu' := h.apart u ((hp u).1 hu).2 ((hs u).1 hu').2
  common u := by
    have hcommon := h.common u
    rw [hp u, hs u, ← and_or_left, hcommon]
    simp only [List.mem_append, List.mem_singleton, forall_eq, or_imp, forall_and]
    tauto

theorem isClique [DecidableEq V] (h : Split adj dom c p s) : IsClique adj dom c.toFinset where
  mem v hv := h.mem v (List.mem_toFinset.1 hv)
  edge u hu v hv := h.edge u (List.mem_toFinset.1 hu) v (List.mem_toFinset.1 hv)

theorem maximal_of_nil [DecidableEq V] (h : Split adj dom c [] []) :
    IsMaximal adj dom c.toFinset where
  toIsClique := h.isClique
  extended v hv hadj := by
    have hmem := (h.common v).2 ⟨hv, fun u hu => hadj u (List.mem_toFinset.2 hu)⟩
    exact (hmem.elim List.not_mem_nil List.not_mem_nil).elim

/-- A maximal clique with nothing but `c` in it leaves no candidates and nothing to be done. -/
theorem eq_nil_of_maximal [DecidableEq V] (h : Split adj dom c p s) (hirrefl : ∀ v, ¬ adj v v)
    (hK : IsMaximal adj dom c.toFinset) : p = [] ∧ s = [] := by
  have hnone : ∀ v, ¬ (v ∈ p ∨ v ∈ s) := by
    intro v hv
    obtain ⟨hdom, hadj⟩ := (h.common v).1 hv
    have hmem := hK.extended v hdom (fun u hu => hadj u (List.mem_toFinset.1 hu))
    exact h.not_mem_of_common hirrefl hv (List.mem_toFinset.1 hmem)
  exact ⟨List.eq_nil_iff_forall_not_mem.2 (fun v hv => hnone v (.inl hv)),
    List.eq_nil_iff_forall_not_mem.2 (fun v hv => hnone v (.inr hv))⟩

end Split

/-- Among finitely many vertices every clique is a part of a maximal one. -/
theorem IsClique.exists_maximal (hsymm : ∀ u v, adj u v → adj v u) (hK : IsClique adj dom K)
    {D : Finset V} (hD : ∀ v, dom v → v ∈ D) : ∃ M, K ⊆ M ∧ IsMaximal adj dom M := by
  classical
  have hmem : K ∈ D.powerset.filter (IsClique adj dom) :=
    Finset.mem_filter.2 ⟨Finset.mem_powerset.2 (fun v hv => hD v (hK.mem v hv)), hK⟩
  obtain ⟨M, hle, hM⟩ := Finset.exists_le_maximal _ hmem
  have hclique := (Finset.mem_filter.1 hM.prop).2
  refine ⟨M, hle, hclique, fun v hv hadj => ?_⟩
  have hinsert : insert v M ∈ D.powerset.filter (IsClique adj dom) := by
    refine Finset.mem_filter.2 ⟨Finset.mem_powerset.2 ?_, ?_, ?_⟩
    · exact Finset.insert_subset (hD v hv) (Finset.mem_powerset.1 (Finset.mem_filter.1 hM.prop).1)
    · intro u hu
      rcases Finset.mem_insert.1 hu with rfl | hu
      · exact hv
      · exact hclique.mem u hu
    · intro u hu w hw hne
      rcases Finset.mem_insert.1 hu with heq | hu' <;> rcases Finset.mem_insert.1 hw with heq' | hw'
      · exact absurd (heq.trans heq'.symm) hne
      · exact hsymm w u (heq ▸ hadj w hw')
      · exact heq' ▸ hadj u hu'
      · exact hclique.edge u hu' w hw' hne
  exact hM.le_of_ge hinsert (Finset.subset_insert v M) (Finset.mem_insert_self v M)

end Cpf
