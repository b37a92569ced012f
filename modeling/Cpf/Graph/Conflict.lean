import Cpf.Graph.Termination

/-!
# The network of conflicts

Items with weights and pairs of items that must not both be kept. Every item has two copies: an edge
from the source to its left copy and an edge from its right copy to the sink carry its weight, and
an edge without a bound joins the left copy of the first and the right copy of the second item of
every pair. The items that no edge of a minimum cut touches are kept.
-/

namespace Cpf.Graph

def left (i : ℕ) : ℕ := 0 + 2 * (i + 1)

def right (i : ℕ) : ℕ := 1 + 2 * (i + 1)

theorem left_inj {i j : ℕ} : left i = left j ↔ i = j := by
  rw [left, left]
  omega

theorem right_inj {i j : ℕ} : right i = right j ↔ i = j := by
  rw [right, right]
  omega

theorem left_ne_right (i j : ℕ) : left i ≠ right j := by
  rw [left, right]
  omega

theorem left_ne_source (i : ℕ) : left i ≠ source := by
  rw [left, source]
  omega

theorem left_ne_sink (i : ℕ) : left i ≠ sink := by
  rw [left, sink]
  omega

theorem right_ne_source (i : ℕ) : right i ≠ source := by
  rw [right, source]
  omega

theorem right_ne_sink (i : ℕ) : right i ≠ sink := by
  rw [right, sink]
  omega

def Network.ofEdges (es : List (ℕ × ℕ × UInt64)) : Network :=
  es.foldl (fun g e => g.addEdge e.1 e.2.1 e.2.2) Network.empty

section OfEdges

variable {es : List (ℕ × ℕ × UInt64)} {u v w : ℕ} {c : UInt64}

theorem Network.ofEdges_append (e : ℕ × ℕ × UInt64) :
    ofEdges (es ++ [e]) = (ofEdges es).addEdge e.1 e.2.1 e.2.2 := by
  rw [ofEdges, List.foldl_append]
  rfl

theorem Network.mem_adj_ofEdges : w ∈ (ofEdges es).adj v ↔ ∃ c, (v, w, c) ∈ es := by
  induction es using List.reverseRecOn with
  | nil => simp [ofEdges, empty]
  | append_singleton es e ih =>
      obtain ⟨a, b, c'⟩ := e
      rw [ofEdges_append]
      change w ∈ Function.update (ofEdges es).adj a ((ofEdges es).adj a ++ [b]) v ↔ _
      by_cases hv : v = a
      · subst hv
        rw [Function.update_self, List.mem_append, ih]
        simp only [List.mem_append, List.mem_singleton, Prod.mk.injEq, true_and, exists_or]
        simp
      · rw [Function.update_of_ne hv, ih]
        simp [hv]

theorem Network.mem_verts_ofEdges (h : w ∈ (ofEdges es).adj v) : v ∈ (ofEdges es).verts := by
  induction es using List.reverseRecOn with
  | nil => simp [ofEdges, empty] at h
  | append_singleton es e ih =>
      obtain ⟨a, b, c'⟩ := e
      rw [mem_adj_ofEdges] at h
      obtain ⟨c, hc⟩ := h
      rw [ofEdges_append]
      simp only [addEdge]
      have hor : v = a ∨ v ∈ (ofEdges es).verts := by
        rcases List.mem_append.1 hc with hold | hnew
        · exact Or.inr (ih (mem_adj_ofEdges.2 ⟨c, hold⟩))
        · simp only [List.mem_singleton, Prod.mk.injEq] at hnew
          exact Or.inl hnew.1
      split_ifs with ha
      · rcases hor with rfl | hmem
        · exact ha
        · exact hmem
      · rw [List.mem_orderedInsert]
        exact hor

/-- The capacity of an edge is one that was given for it. -/
theorem Network.cap_ofEdges (h : (ofEdges es).cap v w = some c) : (v, w, c) ∈ es := by
  induction es using List.reverseRecOn with
  | nil => cases h
  | append_singleton es e ih =>
      obtain ⟨a, b, c'⟩ := e
      rw [ofEdges_append] at h
      change Function.update (ofEdges es).cap a
        (Function.update ((ofEdges es).cap a) b (some c')) v w = some c at h
      apply List.mem_append.2
      by_cases hv : v = a
      · subst hv
        rw [Function.update_self] at h
        by_cases hw : w = b
        · subst hw
          rw [Function.update_self] at h
          cases h
          exact Or.inr (List.mem_singleton_self _)
        · rw [Function.update_of_ne hw] at h
          exact Or.inl (ih h)
      · rw [Function.update_of_ne hv] at h
        exact Or.inl (ih h)

theorem Network.cap_ofEdges_ne_none : (ofEdges es).cap v w ≠ none ↔ w ∈ (ofEdges es).adj v := by
  induction es using List.reverseRecOn with
  | nil => simp [ofEdges, empty]
  | append_singleton es e ih =>
      obtain ⟨a, b, c'⟩ := e
      rw [ofEdges_append]
      change Function.update (ofEdges es).cap a
          (Function.update ((ofEdges es).cap a) b (some c')) v w ≠ none ↔
        w ∈ Function.update (ofEdges es).adj a ((ofEdges es).adj a ++ [b]) v
      by_cases hv : v = a
      · subst hv
        rw [Function.update_self, Function.update_self, List.mem_append, List.mem_singleton, ← ih]
        by_cases hw : w = b
        · simp [hw]
        · simp [hw]
      · rw [Function.update_of_ne hv, Function.update_of_ne hv]
        exact ih

end OfEdges

/-- Items, their weights and the pairs of items in conflict. A weight is neither 0 nor the number that
stands for no bound. -/
structure Conflicts where
  items : List ℕ
  weight : ℕ → UInt64
  pairs : List (ℕ × ℕ)
  mem : ∀ p ∈ pairs, p.1 ∈ items ∧ p.2 ∈ items
  pos : ∀ i ∈ items, weight i ≠ 0
  finite : ∀ i ∈ items, weight i ≠ infinity

namespace Conflicts

/-- The edges of the network, in the order in which they are added. -/
def entries (items : List ℕ) (weight : ℕ → UInt64) (pairs : List (ℕ × ℕ)) :
    List (ℕ × ℕ × UInt64) :=
  items.flatMap (fun i => [(source, left i, weight i), (right i, sink, weight i)]) ++
    pairs.map (fun p => (left p.1, right p.2, infinity))

def network (c : Conflicts) : Network := Network.ofEdges (entries c.items c.weight c.pairs)

variable {c : Conflicts} {v w i j : ℕ}

theorem mem_entries {x : UInt64} :
    (v, w, x) ∈ entries c.items c.weight c.pairs ↔
      (∃ i ∈ c.items, v = source ∧ w = left i ∧ x = c.weight i) ∨
      (∃ i ∈ c.items, v = right i ∧ w = sink ∧ x = c.weight i) ∨
      ∃ p ∈ c.pairs, v = left p.1 ∧ w = right p.2 ∧ x = infinity := by
  rw [entries, List.mem_append, List.mem_flatMap, List.mem_map]
  constructor
  · rintro (⟨i, hi, hmem⟩ | ⟨p, hp, heq⟩)
    · rcases List.mem_cons.1 hmem with heq | hmem
      · cases heq
        exact Or.inl ⟨i, hi, rfl, rfl, rfl⟩
      · cases List.mem_singleton.1 hmem
        exact Or.inr (Or.inl ⟨i, hi, rfl, rfl, rfl⟩)
    · cases heq
      exact Or.inr (Or.inr ⟨p, hp, rfl, rfl, rfl⟩)
  · rintro (⟨i, hi, rfl, rfl, rfl⟩ | ⟨i, hi, rfl, rfl, rfl⟩ | ⟨p, hp, rfl, rfl, rfl⟩)
    · exact Or.inl ⟨i, hi, List.mem_cons_self⟩
    · exact Or.inl ⟨i, hi, List.mem_cons_of_mem _ List.mem_cons_self⟩
    · exact Or.inr ⟨p, hp, rfl⟩

theorem mem_adj :
    w ∈ c.network.adj v ↔
      (∃ i ∈ c.items, v = source ∧ w = left i) ∨ (∃ i ∈ c.items, v = right i ∧ w = sink) ∨
      ∃ p ∈ c.pairs, v = left p.1 ∧ w = right p.2 := by
  rw [network, Network.mem_adj_ofEdges]
  constructor
  · rintro ⟨x, hx⟩
    rcases mem_entries.1 hx with ⟨i, hi, hv, hw, -⟩ | ⟨i, hi, hv, hw, -⟩ | ⟨p, hp, hv, hw, -⟩
    · exact Or.inl ⟨i, hi, hv, hw⟩
    · exact Or.inr (Or.inl ⟨i, hi, hv, hw⟩)
    · exact Or.inr (Or.inr ⟨p, hp, hv, hw⟩)
  · rintro (⟨i, hi, hv, hw⟩ | ⟨i, hi, hv, hw⟩ | ⟨p, hp, hv, hw⟩)
    · exact ⟨_, mem_entries.2 (Or.inl ⟨i, hi, hv, hw, rfl⟩)⟩
    · exact ⟨_, mem_entries.2 (Or.inr (Or.inl ⟨i, hi, hv, hw, rfl⟩))⟩
    · exact ⟨_, mem_entries.2 (Or.inr (Or.inr ⟨p, hp, hv, hw, rfl⟩))⟩

theorem source_left (hi : i ∈ c.items) : left i ∈ c.network.adj source :=
  mem_adj.2 (Or.inl ⟨i, hi, rfl, rfl⟩)

theorem right_sink (hi : i ∈ c.items) : sink ∈ c.network.adj (right i) :=
  mem_adj.2 (Or.inr (Or.inl ⟨i, hi, rfl, rfl⟩))

theorem left_right (hp : (i, j) ∈ c.pairs) : right j ∈ c.network.adj (left i) :=
  mem_adj.2 (Or.inr (Or.inr ⟨(i, j), hp, rfl, rfl⟩))

/-- The edges at a left copy: one from the source, and those of its pairs. -/
theorem eq_source_of_left (h : left i ∈ c.network.adj v) : v = source := by
  rcases mem_adj.1 h with ⟨k, -, hv, -⟩ | ⟨k, -, -, hw⟩ | ⟨p, -, -, hw⟩
  · exact hv
  · exact absurd hw (left_ne_sink i)
  · exact absurd hw (left_ne_right i p.2)

theorem pair_of_left (h : w ∈ c.network.adj (left i)) : ∃ j, w = right j ∧ (i, j) ∈ c.pairs := by
  rcases mem_adj.1 h with ⟨k, -, hv, -⟩ | ⟨k, -, hv, -⟩ | ⟨⟨a, b⟩, hp, hv, hw⟩
  · exact absurd hv (left_ne_source i)
  · exact absurd hv (left_ne_right i k)
  · obtain rfl := left_inj.1 hv
    exact ⟨b, hw, hp⟩

theorem pair_of_right (h : right j ∈ c.network.adj v) : ∃ i, v = left i ∧ (i, j) ∈ c.pairs := by
  rcases mem_adj.1 h with ⟨k, -, -, hw⟩ | ⟨k, -, -, hw⟩ | ⟨⟨a, b⟩, hp, hv, hw⟩
  · exact absurd hw.symm (left_ne_right k j)
  · exact absurd hw (right_ne_sink j)
  · obtain rfl := right_inj.1 hw
    exact ⟨a, hv, hp⟩

theorem eq_sink_of_right (h : w ∈ c.network.adj (right i)) : w = sink := by
  rcases mem_adj.1 h with ⟨k, -, hv, -⟩ | ⟨k, -, -, hw⟩ | ⟨p, -, hv, -⟩
  · exact absurd hv (right_ne_source i)
  · exact hw
  · exact absurd hv.symm (left_ne_right p.1 i)

theorem cap_eq {x : UInt64} (hx : (v, w, x) ∈ entries c.items c.weight c.pairs) :
    c.network.cap v w = some x := by
  have hadj : w ∈ c.network.adj v := Network.mem_adj_ofEdges.2 ⟨x, hx⟩
  obtain ⟨y, hy⟩ := Option.ne_none_iff_exists'.1 (Network.cap_ofEdges_ne_none.2 hadj)
  have hmem := Network.cap_ofEdges hy
  rw [show c.network.cap v w = some y from hy]
  congr 1
  rcases mem_entries.1 hx with ⟨i, -, rfl, rfl, rfl⟩ | ⟨i, -, rfl, rfl, rfl⟩ | ⟨p, -, rfl, rfl, rfl⟩
  · rcases mem_entries.1 hmem with ⟨k, -, -, hw, rfl⟩ | ⟨k, -, hv, -⟩ | ⟨q, -, hv, -⟩
    · rw [left_inj.1 hw]
    · exact absurd hv.symm (right_ne_source k)
    · exact absurd hv.symm (left_ne_source q.1)
  · rcases mem_entries.1 hmem with ⟨k, -, hv, -⟩ | ⟨k, -, hv, -, rfl⟩ | ⟨q, -, hv, -⟩
    · exact absurd hv (right_ne_source i)
    · rw [right_inj.1 hv]
    · exact absurd hv.symm (left_ne_right q.1 i)
  · rcases mem_entries.1 hmem with ⟨k, -, hv, -⟩ | ⟨k, -, hv, -⟩ | ⟨q, -, -, -, rfl⟩
    · exact absurd hv (left_ne_source p.1)
    · exact absurd hv (left_ne_right p.1 k)
    · rfl

theorem bound_source (hi : i ∈ c.items) :
    c.network.bound (source, left i) = (c.weight i).toNat := by
  have hcap : c.network.cap source (left i) = some (c.weight i) :=
    cap_eq (mem_entries.2 (Or.inl ⟨i, hi, rfl, rfl, rfl⟩))
  simp only [Network.bound, hcap]
  exact if_neg (c.finite i hi)

theorem bound_sink (hi : i ∈ c.items) : c.network.bound (right i, sink) = (c.weight i).toNat := by
  have hcap : c.network.cap (right i) sink = some (c.weight i) :=
    cap_eq (mem_entries.2 (Or.inr (Or.inl ⟨i, hi, rfl, rfl, rfl⟩)))
  simp only [Network.bound, hcap]
  exact if_neg (c.finite i hi)

theorem bound_pair (hp : (i, j) ∈ c.pairs) : c.network.bound (left i, right j) = ⊤ := by
  have hcap : c.network.cap (left i) (right j) = some infinity :=
    cap_eq (mem_entries.2 (Or.inr (Or.inr ⟨(i, j), hp, rfl, rfl, rfl⟩)))
  simp only [Network.bound, hcap, if_true]

theorem edge_iff : (v, w) ∈ c.network.edges ↔ w ∈ c.network.adj v :=
  Network.mem_edges_of_verts fun _ _ h => Network.mem_verts_ofEdges h

theorem lt_of_bound {f : ℕ × ℕ → ℕ} (hf : IsFlow c.network.edges c.network.bound source sink f)
    {x : UInt64} (he : w ∈ c.network.adj v) (hx : c.network.bound (v, w) = x.toNat) :
    f (v, w) < 2 ^ 64 := by
  have hle := hf.le_cap _ (edge_iff.2 he)
  rw [hx] at hle
  exact (Nat.cast_le.1 hle).trans_lt x.toNat_lt

/-- No flow is beyond 64 bits: what goes from a left copy to a right copy came from the source. -/
theorem small {f : ℕ × ℕ → ℕ} (hf : IsFlow c.network.edges c.network.bound source sink f)
    {e : ℕ × ℕ} (he : e ∈ c.network.edges) : f e < 2 ^ 64 := by
  obtain ⟨v, w⟩ := e
  have hadj := edge_iff.1 he
  rcases mem_adj.1 hadj with ⟨i, hi, rfl, rfl⟩ | ⟨i, hi, rfl, rfl⟩ | ⟨⟨i, j⟩, hp, rfl, rfl⟩
  · exact lt_of_bound hf hadj (bound_source hi)
  · exact lt_of_bound hf hadj (bound_sink hi)
  · have hi := (c.mem _ hp).1
    have hin : f (left i, right j) ≤ f (source, left i) := by
      apply hf.le_of_single_in he (edge_iff.2 (source_left hi))
      · intro heq
        exact left_ne_source i (Prod.mk.inj heq).1
      · exact left_ne_source i
      · exact left_ne_sink i
      · rintro ⟨x, y⟩ he' hy
        obtain rfl : y = left i := hy
        rw [eq_source_of_left (edge_iff.1 he')]
    exact hin.trans_lt (lt_of_bound hf (source_left hi) (bound_source hi))

theorem ok (c : Conflicts) : c.network.Ok where
  verts _ _ h := Network.mem_verts_ofEdges h
  cap _ _ := Network.cap_ofEdges_ne_none
  antisymm v w h h' := by
    rcases mem_adj.1 h with ⟨i, -, rfl, rfl⟩ | ⟨i, -, rfl, rfl⟩ | ⟨p, -, rfl, rfl⟩
    · obtain ⟨j, hj, -⟩ := pair_of_left h'
      exact right_ne_source j hj.symm
    · obtain ⟨j, hj, -⟩ := pair_of_right h'
      exact left_ne_sink j hj.symm
    · exact left_ne_sink p.1 (eq_sink_of_right h')
  source v h := by
    rcases mem_adj.1 h with ⟨i, -, -, hw⟩ | ⟨i, -, -, hw⟩ | ⟨p, -, -, hw⟩
    · exact left_ne_source i hw.symm
    · exact absurd hw (by decide)
    · exact right_ne_source p.2 hw.symm
  sink := by
    apply List.eq_nil_iff_forall_not_mem.2
    intro w h
    rcases mem_adj.1 h with ⟨i, -, hv, -⟩ | ⟨i, -, hv, -⟩ | ⟨p, -, hv, -⟩
    · exact absurd hv (by decide)
    · exact right_ne_sink i hv.symm
    · exact left_ne_sink p.1 hv.symm
  small _ hf _ he := small hf he

section Cut

variable {f : ℕ × ℕ → ℕ} {S : Set ℕ} {cut : List ℕ}

/-- What a minimum cut of the network is like: the edges of the pairs do not cross it. -/
theorem right_mem (h : IsMinCut c.network f S cut) (hp : (i, j) ∈ c.pairs) (hi : left i ∈ S) :
    right j ∈ S := by
  by_contra hj
  have hfull := h.forward _ _ (left_right hp) hi hj
  rw [bound_pair hp] at hfull
  exact ENat.natCast_ne_top _ hfull

/-- The left copy of an item is in the cut if it is beyond it. -/
theorem left_mem_cut (h : IsMinCut c.network f S cut) (hi : i ∈ c.items) :
    left i ∈ cut ↔ left i ∉ S := by
  rw [h.mem_cut]
  constructor
  · rintro ⟨v, w, hadj, hcross, rfl | rfl⟩ hmem
    · obtain ⟨j, rfl, hp⟩ := pair_of_left hadj
      exact hcross.1 hmem (right_mem h hp hmem)
    · rw [eq_source_of_left hadj] at hcross
      exact hcross.1 h.source hmem
  · intro hnot
    exact ⟨source, left i, source_left hi, iff_of_true h.source hnot, Or.inr rfl⟩

theorem right_mem_cut (h : IsMinCut c.network f S cut) (hi : i ∈ c.items) :
    right i ∈ cut ↔ right i ∈ S := by
  rw [h.mem_cut]
  constructor
  · rintro ⟨v, w, hadj, hcross, rfl | rfl⟩
    · rw [eq_sink_of_right hadj] at hcross
      exact hcross.2 h.sink
    · obtain ⟨k, rfl, hp⟩ := pair_of_right hadj
      by_contra hnot
      exact hnot (right_mem h hp (hcross.2 hnot))
  · intro hmem
    exact ⟨right i, sink, right_sink hi, iff_of_true hmem h.sink, Or.inl rfl⟩

def Kept (cut : List ℕ) (i : ℕ) : Prop := left i ∉ cut ∧ right i ∉ cut

theorem kept_iff (h : IsMinCut c.network f S cut) (hi : i ∈ c.items) :
    Kept cut i ↔ left i ∈ S ∧ right i ∉ S := by
  rw [Kept, left_mem_cut h hi, right_mem_cut h hi, not_not]

theorem not_kept_pair (h : IsMinCut c.network f S cut) (hp : (i, j) ∈ c.pairs) :
    ¬ (Kept cut i ∧ Kept cut j) := by
  rintro ⟨hi, hj⟩
  rw [kept_iff h (c.mem _ hp).1] at hi
  rw [kept_iff h (c.mem _ hp).2] at hj
  exact hj.2 (right_mem h hp hi.1)

/-- An item whose left copy is beyond the cut is in conflict with an item whose right copy is too: the
edge from the source is full, and nothing flows back over the cut. -/
theorem exists_pair_of_left (h : IsMinCut c.network f S cut) (hi : i ∈ c.items) (hnot : left i ∉ S) :
    ∃ j, (i, j) ∈ c.pairs ∧ right j ∉ S := by
  have hfull := h.forward _ _ (source_left hi) h.source hnot
  rw [bound_source hi] at hfull
  have hpos : 0 < f (source, left i) := by
    rw [Nat.cast_inj.1 hfull]
    exact Nat.pos_of_ne_zero fun h0 => c.pos i hi (UInt64.toNat.inj h0)
  obtain ⟨⟨v, w⟩, he, hv, hout⟩ := h.isFlow.exists_out (edge_iff.2 (source_left hi)) hpos
    (left_ne_source i) (left_ne_sink i)
  obtain rfl : v = left i := hv
  obtain ⟨j, rfl, hp⟩ := pair_of_left (edge_iff.1 he)
  refine ⟨j, hp, fun hmem => ?_⟩
  rw [h.backward _ _ (left_right hp) hnot hmem] at hout
  exact Nat.lt_irrefl 0 hout

theorem exists_pair_of_right (h : IsMinCut c.network f S cut) (hj : j ∈ c.items)
    (hmem : right j ∈ S) : ∃ i, (i, j) ∈ c.pairs ∧ left i ∈ S := by
  have hfull := h.forward _ _ (right_sink hj) hmem h.sink
  rw [bound_sink hj] at hfull
  have hpos : 0 < f (right j, sink) := by
    rw [Nat.cast_inj.1 hfull]
    exact Nat.pos_of_ne_zero fun h0 => c.pos j hj (UInt64.toNat.inj h0)
  obtain ⟨⟨v, w⟩, he, hw, hin⟩ := h.isFlow.exists_in (edge_iff.2 (right_sink hj)) hpos
    (right_ne_source j) (right_ne_sink j)
  obtain rfl : w = right j := hw
  obtain ⟨i, rfl, hp⟩ := pair_of_right (edge_iff.1 he)
  refine ⟨i, hp, ?_⟩
  by_contra hnot
  rw [h.backward _ _ (left_right hp) hnot hmem] at hin
  exact Nat.lt_irrefl 0 hin

/-- An item between two kept items is kept, if it has the conflicts of its neighbours. -/
theorem kept_between (h : IsMinCut c.network f S cut) {k : ℕ} (hi : i ∈ c.items) (hk : k ∈ c.items)
    (hj : j ∈ c.items) (hfirst : ∀ m, (k, m) ∈ c.pairs → (i, m) ∈ c.pairs)
    (hlast : ∀ l, (l, k) ∈ c.pairs → (l, j) ∈ c.pairs) (hki : Kept cut i) (hkj : Kept cut j) :
    Kept cut k := by
  rw [kept_iff h hi] at hki
  rw [kept_iff h hj] at hkj
  rw [kept_iff h hk]
  constructor
  · by_contra hnot
    obtain ⟨m, hp, hm⟩ := exists_pair_of_left h hk hnot
    exact hm (right_mem h (hfirst m hp) hki.1)
  · intro hmem
    obtain ⟨l, hp, hl⟩ := exists_pair_of_right h hk hmem
    exact hkj.2 (right_mem h (hlast l hp) hl)

end Cut

end Conflicts

end Cpf.Graph
