import Mathlib.Data.Finset.Card
import Mathlib.Logic.Relation
import Mathlib.Tactic

/-!
# Topological visits of a graph

A visit counts for every node the links from nodes that were not visited yet, and goes on to a node when
none is left. Nodes can be given up during the visit, with everything behind them. In the end all
other nodes were visited, each behind the ones that lead to it.
-/

namespace Cpf

/-- A finite graph without cycles. -/
structure Dag (ν : Type*) where
  nodes : Finset ν
  out : ν → List ν
  rank : ν → ℕ
  out_mem : ∀ u v, v ∈ out u → u ∈ nodes ∧ v ∈ nodes
  out_rank : ∀ u v, v ∈ out u → rank u < rank v

namespace Dag

variable {ν : Type*} [DecidableEq ν] {G : Dag ν}

def Edge (G : Dag ν) (u v : ν) : Prop := v ∈ G.out u

/-- The nodes with a link to `v`. -/
def ins (G : Dag ν) (v : ν) : Finset ν := G.nodes.filter fun u => v ∈ G.out u

theorem mem_ins {u v : ν} : u ∈ G.ins v ↔ v ∈ G.out u := by
  rw [ins, Finset.mem_filter]
  exact ⟨fun h => h.2, fun h => ⟨(G.out_mem u v h).1, h⟩⟩

/-- A visit in progress: `fringe` are the nodes to go on with, `dead` the ones that were given up, and `left`
counts the links that are not accounted for. -/
structure Visit (G : Dag ν) (visited fringe : List ν) (dead : ν → Prop) (left : ν → ℕ) : Prop where
  visited_nodup : visited.Nodup
  visited_mem : ∀ v ∈ visited, v ∈ G.nodes
  closed : ∀ v ∈ visited, ∀ u, v ∈ G.out u → u ∈ visited
  fringe_nodup : fringe.Nodup
  fringe_mem : ∀ v ∈ fringe, v ∈ G.nodes ∧ v ∉ visited
  dead_closed : ∀ u v, dead u → v ∈ G.out u → dead v
  left_eq : ∀ v ∈ G.nodes, ¬ dead v → left v = (G.ins v \ visited.toFinset).card
  ready : ∀ v ∈ G.nodes, ¬ dead v → (left v = 0 ↔ v ∈ fringe ∨ v ∈ visited)
  order : visited.Pairwise fun u v => ¬ Relation.TransGen G.Edge v u

namespace Visit

variable {visited fringe front rest new : List ν} {dead dead' : ν → Prop} {left left' : ν → ℕ} {n : ν}

theorem start {roots : List ν} (hnodup : roots.Nodup)
    (hroots : ∀ v, v ∈ roots ↔ v ∈ G.nodes ∧ G.ins v = ∅)
    (hleft : ∀ v ∈ G.nodes, left v = (G.ins v).card) : Visit G [] roots (fun _ => False) left where
  visited_nodup := List.nodup_nil
  visited_mem v hv := absurd hv List.not_mem_nil
  closed v hv := absurd hv List.not_mem_nil
  fringe_nodup := hnodup
  fringe_mem v hv := ⟨((hroots v).1 hv).1, List.not_mem_nil⟩
  dead_closed u v h := h.elim
  left_eq v hv _ := by
    rw [hleft v hv, List.toFinset_nil, Finset.sdiff_empty]
  ready v hv _ := by
    rw [hleft v hv, Finset.card_eq_zero, hroots]
    simp [hv]
  order := List.Pairwise.nil

theorem ins_sdiff_concat {v : ν} (hn : n ∉ visited) :
    (G.ins v \ (visited ++ [n]).toFinset).card =
      (G.ins v \ visited.toFinset).card - if v ∈ G.out n then 1 else 0 := by
  have heq : G.ins v \ (visited ++ [n]).toFinset = (G.ins v \ visited.toFinset).erase n := by
    ext u
    simp only [Finset.mem_sdiff, List.mem_toFinset, List.mem_append, List.mem_singleton, Finset.mem_erase]
    tauto
  rw [heq, Finset.card_erase_eq_ite]
  have hmem : n ∈ G.ins v \ visited.toFinset ↔ v ∈ G.out n := by
    rw [Finset.mem_sdiff, mem_ins, List.mem_toFinset]
    exact ⟨fun h => h.1, fun h => ⟨h, hn⟩⟩
  by_cases hout : v ∈ G.out n
  · rw [if_pos (hmem.2 hout), if_pos hout]
  · rw [if_neg fun h => hout (hmem.1 h), if_neg hout]
    rfl

theorem next (h : Visit G visited (front ++ n :: rest) dead left) (hfront : ∀ v ∈ front, dead v)
    (hn : ¬ dead n)
    (hleft : ∀ v, ¬ dead v → left' v = left v - if v ∈ G.out n then 1 else 0)
    (hnew : new.Nodup) (hmem : ∀ v, v ∈ new ↔ v ∈ G.out n ∧ ¬ dead v ∧ left v = 1) :
    Visit G (visited ++ [n]) (new ++ rest) dead left' := by
  have hnmem : n ∈ front ++ n :: rest := List.mem_append_right _ List.mem_cons_self
  obtain ⟨hnode, hfresh⟩ := h.fringe_mem n hnmem
  have hready : (G.ins n \ visited.toFinset) = ∅ := by
    rw [← Finset.card_eq_zero, ← h.left_eq n hnode hn]
    exact (h.ready n hnode hn).2 (Or.inl hnmem)
  have hins : ∀ u, n ∈ G.out u → u ∈ visited := by
    intro u hu
    have hsub := Finset.sdiff_eq_empty_iff_subset.1 hready
    exact List.mem_toFinset.1 (hsub (mem_ins.2 hu))
  have hself : n ∉ G.out n := fun hself => lt_irrefl _ (G.out_rank n n hself)
  have hrest : ∀ v ∈ rest, v ∈ front ++ n :: rest := fun v hv =>
    List.mem_append_right _ (List.mem_cons_of_mem _ hv)
  have hdistinct := List.nodup_append.1 h.fringe_nodup
  have hnrest : n ∉ rest := (List.nodup_cons.1 hdistinct.2.1).1
  -- a node that becomes ready was not ready before
  have hnewfresh : ∀ v ∈ new, v ∈ G.nodes ∧ v ∉ front ++ n :: rest ∧ v ∉ visited := by
    intro v hv
    obtain ⟨hout, hdead, hone⟩ := (hmem v).1 hv
    have hvnode := (G.out_mem n v hout).2
    have hnot := mt (h.ready v hvnode hdead).2 (by omega)
    rw [not_or] at hnot
    exact ⟨hvnode, hnot⟩
  refine ⟨?_, ?_, ?_, ?_, ?_, h.dead_closed, ?_, ?_, ?_⟩
  · rw [List.nodup_append]
    refine ⟨h.visited_nodup, List.nodup_singleton n, fun u hu v hv huv => ?_⟩
    rw [List.mem_singleton.1 hv] at huv
    exact hfresh (huv ▸ hu)
  · intro v hv
    rcases List.mem_append.1 hv with hv | hv
    · exact h.visited_mem v hv
    · rw [List.mem_singleton.1 hv]
      exact hnode
  · intro v hv u hu
    apply List.mem_append_left
    rcases List.mem_append.1 hv with hv | hv
    · exact h.closed v hv u hu
    · rw [List.mem_singleton.1 hv] at hu
      exact hins u hu
  · rw [List.nodup_append]
    refine ⟨hnew, (List.nodup_cons.1 hdistinct.2.1).2, fun u hu v hv huv => ?_⟩
    exact (hnewfresh u hu).2.1 (hrest u (huv ▸ hv))
  · intro v hv
    rcases List.mem_append.1 hv with hv | hv
    · obtain ⟨hvnode, hvfringe, hvisited⟩ := hnewfresh v hv
      refine ⟨hvnode, fun hin => ?_⟩
      rcases List.mem_append.1 hin with hin | hin
      · exact hvisited hin
      · exact hvfringe (List.mem_singleton.1 hin ▸ hnmem)
    · obtain ⟨hvnode, hvisited⟩ := h.fringe_mem v (hrest v hv)
      refine ⟨hvnode, fun hin => ?_⟩
      rcases List.mem_append.1 hin with hin | hin
      · exact hvisited hin
      · exact hnrest (List.mem_singleton.1 hin ▸ hv)
  · intro v hv hdead
    rw [hleft v hdead, ins_sdiff_concat hfresh, h.left_eq v hv hdead]
  · intro v hv hdead
    have hvfront : v ∉ front := fun hin => hdead (hfront v hin)
    have hold : left v = 0 ↔ (v = n ∨ v ∈ rest) ∨ v ∈ visited := by
      rw [h.ready v hv hdead, List.mem_append, List.mem_cons]
      exact or_congr_left ⟨fun hin => hin.resolve_left hvfront, Or.inr⟩
    rw [hleft v hdead, List.mem_append, List.mem_append, List.mem_singleton, hmem]
    have hswap : (v = n ∨ v ∈ rest) ∨ v ∈ visited ↔ v ∈ rest ∨ v ∈ visited ∨ v = n := by
      rw [or_assoc, or_comm, or_assoc]
    by_cases hout : v ∈ G.out n
    · rw [if_pos hout]
      have hcases : left v - 1 = 0 ↔ left v = 1 ∨ left v = 0 := by omega
      rw [hcases, hold, hswap, or_assoc]
      exact or_congr_left ⟨fun hone => ⟨hout, hdead, hone⟩, fun hone => hone.2.2⟩
    · rw [if_neg hout, Nat.sub_zero, hold, hswap, or_assoc]
      exact ⟨Or.inr, fun hin => hin.resolve_left fun hone => hout hone.1⟩
  · rw [List.pairwise_append]
    refine ⟨h.order, List.pairwise_singleton _ _, fun u hu v hv => ?_⟩
    rw [List.mem_singleton.1 hv]
    intro hpath
    -- the visited nodes contain everything that leads to them
    have hall : ∀ w, Relation.TransGen G.Edge w u → w ∈ visited := by
      intro w hw
      induction hw using Relation.TransGen.head_induction_on with
      | single hedge => exact h.closed u hu _ hedge
      | head hedge _ ih => exact h.closed _ ih _ hedge
    exact hfresh (hall n hpath)

theorem giveUp (h : Visit G visited fringe dead left) (hsub : ∀ v, dead v → dead' v)
    (hclosed : ∀ u v, dead' u → v ∈ G.out u → dead' v) (hleft : ∀ v, ¬ dead' v → left' v = left v) :
    Visit G visited fringe dead' left' :=
  { h with
    dead_closed := hclosed
    left_eq := fun v hv hn => (hleft v hn).trans (h.left_eq v hv (mt (hsub v) hn))
    ready := fun v hv hn => by
      rw [hleft v hn]
      exact h.ready v hv (mt (hsub v) hn) }

/-- The visit ends when no node is ready that was not given up. -/
theorem finished (h : Visit G visited fringe dead left) (hend : ∀ v ∈ fringe, dead v) :
    ∀ v ∈ G.nodes, ¬ dead v → v ∈ visited := by
  intro v
  induction hr : G.rank v using Nat.strong_induction_on generalizing v with
  | _ r ih =>
      intro hv hn
      have hins : G.ins v \ visited.toFinset = ∅ := by
        rw [Finset.sdiff_eq_empty_iff_subset]
        intro u hu
        rw [mem_ins] at hu
        rw [List.mem_toFinset]
        apply ih (G.rank u) (hr ▸ G.out_rank u v hu) u rfl (G.out_mem u v hu).1
        exact fun hdead => hn (h.dead_closed u v hdead hu)
      have hzero : left v = 0 := by rw [h.left_eq v hv hn, hins, Finset.card_empty]
      rcases (h.ready v hv hn).1 hzero with hf | hvisited
      · exact absurd (hend v hf) hn
      · exact hvisited

end Visit

end Dag

end Cpf
