import Cpf.Utilities.LatticeSearch

/-!
# The graph of the lattice

`Lattice.Wf` says that all links of a lattice follow the order and that the ends are the nodes without
links to the one side. Then the links form a graph without cycles, in which an iterator can start.
-/

namespace Cpf.Utilities

variable {α : Type} {order : LatticeOrder α} {values : List α} {l : Lattice α} {m : ℕ}

/-- The node's element is below the other node's. -/
def Below (order : LatticeOrder α) (values : List α) (u v : ℕ) : Prop :=
  u ≠ v ∧ ∃ a b, values[u]? = some a ∧ values[v]? = some b ∧ order.compare a b = true

theorem Below.left_lt {u v : ℕ} (h : Below order values u v) : u < values.length := by
  obtain ⟨_, a, b, ha, _⟩ := h
  exact (List.getElem?_eq_some_iff.1 ha).1

theorem Below.right_lt {u v : ℕ} (h : Below order values u v) : v < values.length := by
  obtain ⟨_, a, b, _, hb, _⟩ := h
  exact (List.getElem?_eq_some_iff.1 hb).1

/-- Different nodes have different elements. -/
theorem node_eq_of_value {u v : ℕ} {a : α} (hnodup : values.Nodup) (hu : values[u]? = some a)
    (hv : values[v]? = some a) : u = v := by
  obtain ⟨hlu, rfl⟩ := List.getElem?_eq_some_iff.1 hu
  obtain ⟨hlv, heq⟩ := List.getElem?_eq_some_iff.1 hv
  exact (List.Nodup.getElem_inj_iff hnodup).1 heq.symm

theorem Below.asymm {u v : ℕ} (hnodup : values.Nodup) (h : Below order values u v) :
    ¬ Below order values v u := by
  rintro ⟨_, b', a', hb', ha', hba⟩
  obtain ⟨hne, a, b, ha, hb, hab⟩ := h
  rw [ha] at ha'
  rw [hb] at hb'
  cases ha'
  cases hb'
  rw [order.antisymm _ _ hab hba] at ha
  exact hne (node_eq_of_value hnodup ha hb)

theorem Below.trans {u v w : ℕ} (hnodup : values.Nodup) (huv : Below order values u v)
    (hvw : Below order values v w) : Below order values u w := by
  refine ⟨?_, ?_⟩
  · rintro rfl
    exact huv.asymm hnodup hvw
  · obtain ⟨_, a, b, ha, hb, hab⟩ := huv
    obtain ⟨_, b', c, hb', hc, hbc⟩ := hvw
    rw [hb] at hb'
    cases hb'
    exact ⟨a, c, ha, hc, order.trans a b c hab hbc⟩

/-- Everything but the paths. The first `m` nodes can be ends of the lattice. -/
structure Lattice.Wf (order : LatticeOrder α) (m : ℕ) (l : Lattice α) : Prop where
  le : m ≤ l.values.length
  nodup : l.values.Nodup
  succs_nodup : ∀ u, (l.succs u).Nodup
  preds_nodup : ∀ v, (l.preds v).Nodup
  mem_preds : ∀ u v, u ∈ l.preds v ↔ v ∈ l.succs u
  below : ∀ u v, v ∈ l.succs u → Below order l.values u v
  sources_nodup : l.sources.Nodup
  sinks_nodup : l.sinks.Nodup
  mem_sources : ∀ v, v ∈ l.sources ↔ v < m ∧ l.preds v = []
  mem_sinks : ∀ v, v ∈ l.sinks ↔ v < m ∧ l.succs v = []

def Lattice.Succ (l : Lattice α) (u v : ℕ) : Prop := v ∈ l.succs u

/-! ### The graph of a lattice -/

namespace Lattice.Wf

variable {isForward : Bool} {u v : ℕ}

/-- The nodes in front of a node, in the iterator's direction. -/
def Front (order : LatticeOrder α) (values : List α) (isForward : Bool) (u v : ℕ) : Prop :=
  if isForward then Below order values u v else Below order values v u

theorem front_of_mem_out (h : l.Wf order m) (hv : v ∈ l.out isForward u) :
    Front order l.values isForward u v := by
  cases isForward with
  | true => exact h.below u v hv
  | false => exact h.below v u ((h.mem_preds v u).1 hv)

theorem Front.trans {w : ℕ} (hnodup : values.Nodup) (huv : Front order values isForward u v)
    (hvw : Front order values isForward v w) : Front order values isForward u w := by
  cases isForward with
  | true => exact Below.trans hnodup huv hvw
  | false => exact Below.trans hnodup hvw huv

theorem Front.irrefl : ¬ Front order values isForward u u := by
  cases isForward with
  | true => exact fun h => h.1 rfl
  | false => exact fun h => h.1 rfl

theorem Front.lt (h : Front order values isForward u v) : u < values.length ∧ v < values.length := by
  cases isForward with
  | true => exact ⟨Below.left_lt h, Below.right_lt h⟩
  | false => exact ⟨Below.right_lt h, Below.left_lt h⟩

open Classical in
noncomputable def rank (order : LatticeOrder α) (values : List α) (isForward : Bool) (v : ℕ) : ℕ :=
  ((Finset.range values.length).filter fun u => Front order values isForward u v).card

theorem rank_lt_rank (hnodup : values.Nodup) (h : Front order values isForward u v) :
    rank order values isForward u < rank order values isForward v := by
  classical
  refine Finset.card_lt_card ⟨fun w hw => ?_, fun hsub => ?_⟩
  · rw [Finset.mem_filter] at hw ⊢
    exact ⟨hw.1, hw.2.trans hnodup h⟩
  · have hmem := hsub (Finset.mem_filter.2 ⟨Finset.mem_range.2 h.lt.1, h⟩)
    exact Front.irrefl (Finset.mem_filter.1 hmem).2

theorem numIn_ne_zero_of_mem_out (h : l.Wf order m) (hv : v ∈ l.out isForward u) :
    l.numIn isForward v ≠ 0 := by
  cases isForward with
  | true => exact Nat.pos_iff_ne_zero.1 (List.length_pos_of_mem ((h.mem_preds u v).2 hv))
  | false => exact Nat.pos_iff_ne_zero.1 (List.length_pos_of_mem ((h.mem_preds v u).1 hv))

/-- The lattice as a graph, for iterators of one direction. Of the nodes from `m` on, only the ones with
links to them can be visited. -/
noncomputable def dag (h : l.Wf order m) (isForward : Bool) (hnew : ∀ u, m ≤ u → l.out isForward u = []) :
    Dag ℕ where
  nodes := (Finset.range l.values.length).filter fun v => v < m ∨ l.numIn isForward v ≠ 0
  out := l.out isForward
  rank := rank order l.values isForward
  out_mem u v hv := by
    have hlt := (h.front_of_mem_out hv).lt
    have hu : u < m := by
      by_contra hu
      rw [hnew u (Nat.le_of_not_lt hu)] at hv
      exact List.not_mem_nil hv
    rw [Finset.mem_filter, Finset.mem_range, Finset.mem_filter, Finset.mem_range]
    exact ⟨⟨hlt.1, Or.inl hu⟩, hlt.2, Or.inr (h.numIn_ne_zero_of_mem_out hv)⟩
  out_rank u v hv := rank_lt_rank h.nodup (h.front_of_mem_out hv)

variable {hnew : ∀ u, m ≤ u → l.out isForward u = []}

theorem mem_nodes {h : l.Wf order m} :
    v ∈ (h.dag isForward hnew).nodes ↔ v < l.values.length ∧ (v < m ∨ l.numIn isForward v ≠ 0) := by
  rw [dag, Finset.mem_filter, Finset.mem_range]

theorem card_nodes_lt {h : l.Wf order m} : (h.dag isForward hnew).nodes.card < l.values.length + 1 := by
  have hle := Finset.card_le_card (Finset.filter_subset (fun v => v < m ∨ l.numIn isForward v ≠ 0)
    (Finset.range l.values.length))
  rw [Finset.card_range] at hle
  exact Nat.lt_succ_of_le hle

theorem card_ins (h : l.Wf order m) : ((h.dag isForward hnew).ins v).card = l.numIn isForward v := by
  cases isForward with
  | true =>
      have heq : (h.dag true hnew).ins v = (l.preds v).toFinset := by
        ext u
        rw [Dag.mem_ins, List.mem_toFinset, h.mem_preds]
        rfl
      rw [heq, List.toFinset_card_of_nodup (h.preds_nodup v)]
      rfl
  | false =>
      have heq : (h.dag false hnew).ins v = (l.succs v).toFinset := by
        ext u
        rw [Dag.mem_ins, List.mem_toFinset, ← h.mem_preds]
        rfl
      rw [heq, List.toFinset_card_of_nodup (h.succs_nodup v)]
      rfl

theorem out_nodup (h : l.Wf order m) : (l.out isForward u).Nodup := by
  cases isForward with
  | true => exact h.succs_nodup u
  | false => exact h.preds_nodup u

theorem dag_out_nodup {h : l.Wf order m} : ((h.dag isForward hnew).out u).Nodup := h.out_nodup

def roots (l : Lattice α) (isForward : Bool) : List ℕ := if isForward then l.sources else l.sinks

theorem mem_roots (h : l.Wf order m) :
    v ∈ roots l isForward ↔ v ∈ (h.dag isForward hnew).nodes ∧ (h.dag isForward hnew).ins v = ∅ := by
  have hroots : v ∈ roots l isForward ↔ v < m ∧ l.numIn isForward v = 0 := by
    cases isForward with
    | true => exact (h.mem_sources v).trans (and_congr_right fun _ => List.length_eq_zero_iff.symm)
    | false => exact (h.mem_sinks v).trans (and_congr_right fun _ => List.length_eq_zero_iff.symm)
  rw [hroots, mem_nodes, ← Finset.card_eq_zero, h.card_ins]
  have hle := h.le
  constructor
  · exact fun hv => ⟨⟨hv.1.trans_le hle, Or.inl hv.1⟩, hv.2⟩
  · exact fun hv => ⟨hv.1.2.resolve_right fun hne => hne hv.2, hv.2⟩

theorem iterates_start (h : l.Wf order m) {isEnd : Bool} {next : ℕ} :
    Iterates (h.dag isForward hnew) l ⟨isForward, isEnd, next, roots l isForward, fun _ => none⟩ [] := by
  apply Iterates.start
  · refine ⟨fun v hv => (mem_nodes.1 hv).1, fun n => h.out_nodup, fun n _ => ?_, fun v _ _ => h.card_ins.symm⟩
    exact ⟨[], rfl, fun v hv => absurd hv List.not_mem_nil⟩
  · cases isForward with
    | true => exact h.sources_nodup
    | false => exact h.sinks_nodup
  · exact fun v => h.mem_roots

end Lattice.Wf

end Cpf.Utilities
