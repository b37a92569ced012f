import Cpf.Utilities.LatticeIterator

/-!
# The loops of the lattice

The loops of `insert` link the new element to the nodes that they look for and prune behind them. A
node that is looked for can be missed only because it lies behind one that was linked. The plain loop over
all nodes lists each of them once, in topological order.
-/

namespace Cpf.Utilities

variable {α : Type} {G : Dag ℕ} {l l₀ : Lattice α} {it : LatticeIterator} {isForward : Bool}
  {linked visited : List ℕ} {wanted : ℕ → Prop} {degrees degrees' : ℕ → Option Degree}
  {link : Lattice α → ℕ → Lattice α}

structure Linked (G : Dag ℕ) (wanted : ℕ → Prop) (linked visited : List ℕ)
    (degrees : ℕ → Option Degree) : Prop where
  nodup : linked.Nodup
  mem : ∀ v ∈ linked, v ∈ G.nodes ∧ wanted v ∧ v ∈ visited
  pruned : ∀ v, Pruned degrees v ↔ ∃ m ∈ linked, Relation.ReflTransGen G.Edge m v
  done : ∀ v ∈ visited, wanted v → Pruned degrees v

theorem Linked.start : Linked G wanted [] [] fun _ => none where
  nodup := List.nodup_nil
  mem _ hv := absurd hv List.not_mem_nil
  pruned _ := iff_of_false (fun hv => Option.some_ne_none _ hv.symm) fun ⟨_, hm, _⟩ => List.not_mem_nil hm
  done _ hv := absurd hv List.not_mem_nil

theorem Linked.congr (h : Linked G wanted linked visited degrees)
    (hpruned : ∀ v, Pruned degrees' v ↔ Pruned degrees v) : Linked G wanted linked visited degrees' :=
  ⟨h.nodup, h.mem, fun v => (hpruned v).trans (h.pruned v), fun v hv hw => (hpruned v).2 (h.done v hv hw)⟩

theorem Linked.concat {n : ℕ} (h : Linked G wanted linked visited degrees) (hn : n ∈ G.nodes)
    (hfresh : n ∉ visited) (hwanted : wanted n)
    (hpruned : ∀ v, Pruned degrees' v ↔ Pruned degrees v ∨ Relation.ReflTransGen G.Edge n v) :
    Linked G wanted (linked ++ [n]) (visited ++ [n]) degrees' where
  nodup := by
    rw [List.nodup_append]
    refine ⟨h.nodup, List.nodup_singleton n, fun u hu v hv huv => ?_⟩
    rw [List.mem_singleton.1 hv] at huv
    exact hfresh (huv ▸ (h.mem u hu).2.2)
  mem v hv := by
    rcases List.mem_append.1 hv with hv | hv
    · obtain ⟨hnode, hw, hvisited⟩ := h.mem v hv
      exact ⟨hnode, hw, List.mem_append_left _ hvisited⟩
    · rw [List.mem_singleton.1 hv]
      exact ⟨hn, hwanted, List.mem_append_right _ (List.mem_singleton_self n)⟩
  pruned v := by
    rw [hpruned, h.pruned]
    constructor
    · rintro (⟨m, hm, hreach⟩ | hreach)
      · exact ⟨m, List.mem_append_left _ hm, hreach⟩
      · exact ⟨n, List.mem_append_right _ (List.mem_singleton_self n), hreach⟩
    · rintro ⟨m, hm, hreach⟩
      rcases List.mem_append.1 hm with hm | hm
      · exact Or.inl ⟨m, hm, hreach⟩
      · exact Or.inr (List.mem_singleton.1 hm ▸ hreach)
  done v hv hw := by
    rw [hpruned]
    rcases List.mem_append.1 hv with hv | hv
    · exact Or.inl (h.done v hv hw)
    · rw [List.mem_singleton.1 hv]
      exact Or.inr Relation.ReflTransGen.refl

/-- A node that is not looked for is passed. -/
theorem Linked.skip {n : ℕ} (h : Linked G wanted linked visited degrees) (hwanted : ¬ wanted n) :
    Linked G wanted linked (visited ++ [n]) degrees :=
  ⟨h.nodup, fun v hv => ⟨(h.mem v hv).1, (h.mem v hv).2.1, List.mem_append_left _ (h.mem v hv).2.2⟩, h.pruned,
    fun v hv hw => by
      rcases List.mem_append.1 hv with hv | hv
      · exact h.done v hv hw
      · exact absurd (List.mem_singleton.1 hv ▸ hw) hwanted⟩

def linkAll (link : Lattice α → ℕ → Lattice α) (l₀ : Lattice α) (linked : List ℕ) : Lattice α :=
  linked.foldl link l₀

theorem linkAll_concat (link : Lattice α → ℕ → Lattice α) (l₀ : Lattice α) (linked : List ℕ) (n : ℕ) :
    linkAll link l₀ (linked ++ [n]) = link (linkAll link l₀ linked) n := by
  rw [linkAll, linkAll, List.foldl_append, List.foldl_cons, List.foldl_nil]

/-- What the links of a loop leave alone, whatever nodes are linked. -/
structure Extends (G : Dag ℕ) (isForward : Bool) (link : Lattice α → ℕ → Lattice α)
    (l₀ : Lattice α) : Prop where
  nodup : ∀ n, (G.out n).Nodup
  bound : ∀ linked, ∀ v ∈ G.nodes, v < (linkAll link l₀ linked).values.length
  out : ∀ linked, ∀ u ∈ G.nodes, ∃ extra, (linkAll link l₀ linked).out isForward u = extra ++ G.out u ∧
    ∀ v ∈ extra, v ∈ linked
  numIn : ∀ linked, ∀ v ∈ G.nodes, v ∉ linked →
    (linkAll link l₀ linked).numIn isForward v = (G.ins v).card

/-- A loop of `insert` under way. -/
structure Searching (G : Dag ℕ) (isForward : Bool) (wanted : ℕ → Prop) (link : Lattice α → ℕ → Lattice α)
    (l₀ : Lattice α) (linked visited : List ℕ) (s : Lattice α × LatticeIterator) : Prop where
  lattice : s.1 = linkAll link l₀ linked
  forward : s.2.isForward = isForward
  linked : Linked G wanted linked visited s.2.degrees
  nodup : visited.Nodup
  mem : ∀ v ∈ visited, v ∈ G.nodes
  order : visited.Pairwise fun u v => ¬ Relation.TransGen G.Edge v u
  going : s.2.isEnd = false → Iterates G s.1 s.2 (visited ++ [s.2.next]) ∧ s.2.next ∈ G.nodes ∧
    s.2.next ∉ visited ∧ visited.length < G.nodes.card
  finished : s.2.isEnd = true → ∀ v ∈ G.nodes, ¬ Pruned s.2.degrees v → v ∈ visited

theorem Iterates.length_le (h : Iterates G l it visited) : visited.length ≤ G.nodes.card := by
  rw [← List.toFinset_card_of_nodup h.visit.visited_nodup]
  exact Finset.card_le_card fun v hv => h.visit.visited_mem v (List.mem_toFinset.1 hv)

theorem Searching.advance (h : Iterates G l it visited) (hlattice : l = linkAll link l₀ linked)
    (hforward : it.isForward = isForward) (hlinked : Linked G wanted linked visited it.degrees) :
    Searching G isForward wanted link l₀ linked visited (l, it.advance l) where
  lattice := hlattice
  forward := advance_isForward.trans hforward
  linked := by
    cases hend : (it.advance l).isEnd with
    | true =>
        dsimp only
        rwa [advance_degrees_of_isEnd hend]
    | false => exact hlinked.congr (h.advance hend).2.2.2.2.1
  nodup := h.visit.visited_nodup
  mem := h.visit.visited_mem
  order := h.visit.order
  going hend := by
    obtain ⟨hnext, hnode, hfresh, _⟩ := h.advance hend
    refine ⟨hnext, hnode, hfresh, ?_⟩
    have hle := hnext.length_le
    rw [List.length_append, List.length_singleton] at hle
    exact hle
  finished hend v hv hn := by
    dsimp only at hn hend
    rw [advance_degrees_of_isEnd hend] at hn
    exact h.advance_isEnd hend v hv hn

variable {body : Lattice α → LatticeIterator → ℕ → Except LatticeFailure (Lattice α × LatticeIterator)}

theorem Searching.step {s : Lattice α × LatticeIterator} (hext : Extends G isForward link l₀)
    (hhit : ∀ linked i n, n ∈ G.nodes → wanted n → body (linkAll link l₀ linked) i n = (do
      let i ← i.prune (link (linkAll link l₀ linked) n) n
      return (link (linkAll link l₀ linked) n, i)))
    (hmiss : ∀ linked i n, n ∈ G.nodes → ¬ wanted n →
      body (linkAll link l₀ linked) i n = .ok (linkAll link l₀ linked, i))
    (h : Searching G isForward wanted link l₀ linked visited s) (hend : s.2.isEnd = false) :
    ∃ s' linked', Lattice.searchStep body s = .ok (some s') ∧
      Searching G isForward wanted link l₀ linked' (visited ++ [s.2.next]) s' := by
  obtain ⟨hiter, hnode, hfresh, _⟩ := h.going hend
  obtain ⟨l, it⟩ := s
  obtain rfl : l = linkAll link l₀ linked := h.lattice
  have hforward : it.isForward = isForward := h.forward
  have hlinked : Linked G wanted linked visited it.degrees := h.linked
  unfold Lattice.searchStep
  dsimp only at hend hiter hnode hfresh ⊢
  rw [hend, if_neg Bool.false_ne_true]
  by_cases hwanted : wanted it.next
  · rw [hhit linked it it.next hnode hwanted]
    rw [← linkAll_concat link l₀ linked it.next]
    have hbefore : ∀ v ∈ linked, Pruned it.degrees v := fun v hv =>
      (hlinked.pruned v).2 ⟨v, hv, Relation.ReflTransGen.refl⟩
    obtain ⟨degrees, hprune, hpruned, hsame⟩ := prune_eq_ok it hnode (hext.bound (linked ++ [it.next]))
      (fun u hu => by
        obtain ⟨extra, hout, hextra⟩ := hext.out (linked ++ [it.next]) u hu
        rw [hforward]
        refine ⟨extra, hout, fun v hv => ?_⟩
        exact (List.mem_append.1 (hextra v hv)).imp (hbefore v) List.mem_singleton.1)
      hiter.visit.dead_closed
    rw [hprune]
    have hafter : Linked G wanted (linked ++ [it.next]) (visited ++ [it.next]) degrees :=
      hlinked.concat hnode hfresh hwanted hpruned
    have hdead : ∀ v ∈ linked ++ [it.next], Pruned degrees v := fun v hv =>
      (hafter.pruned v).2 ⟨v, hv, Relation.ReflTransGen.refl⟩
    have hleft : ∀ v, ¬ Pruned degrees v → leftOver G degrees v = leftOver G it.degrees v := by
      intro v hv
      unfold leftOver
      rw [hsame v hv]
    have hnext : Iterates G (linkAll link l₀ (linked ++ [it.next])) { it with degrees := degrees }
        (visited ++ [it.next]) := by
      refine ⟨⟨hext.bound _, hext.nodup, fun u hu => ?_, fun v hv hnone => ?_⟩, ?_⟩
      · obtain ⟨extra, hout, hextra⟩ := hext.out (linked ++ [it.next]) u hu
        dsimp only
        rw [hforward]
        exact ⟨extra, hout, fun v hv => hdead v (hextra v hv)⟩
      · dsimp only at hnone ⊢
        rw [hforward]
        apply hext.numIn _ v hv
        intro hin
        have hinf := hdead v hin
        unfold Pruned at hinf
        rw [hnone] at hinf
        cases hinf
      · apply hiter.visit.giveUp (fun v hv => (hpruned v).2 (Or.inl hv)) (fun u v hu huv => ?_) hleft
        obtain ⟨m, hm, hreach⟩ := (hafter.pruned u).1 hu
        exact (hafter.pruned v).2 ⟨m, hm, hreach.tail huv⟩
    exact ⟨_, linked ++ [it.next], rfl, Searching.advance hnext rfl hforward hafter⟩
  · rw [hmiss linked it it.next hnode hwanted]
    exact ⟨_, linked, rfl, Searching.advance hiter rfl hforward (hlinked.skip hwanted)⟩

/-- A loop of `insert` ends, and every node that it looks for can be reached from one that it linked. -/
theorem search_eq_ok {fuel : ℕ} (hext : Extends G isForward link l₀)
    (hhit : ∀ linked i n, n ∈ G.nodes → wanted n → body (linkAll link l₀ linked) i n = (do
      let i ← i.prune (link (linkAll link l₀ linked) n) n
      return (link (linkAll link l₀ linked) n, i)))
    (hmiss : ∀ linked i n, n ∈ G.nodes → ¬ wanted n →
      body (linkAll link l₀ linked) i n = .ok (linkAll link l₀ linked, i))
    (hstart : Searching G isForward wanted link l₀ [] [] (l₀, it)) (hfuel : G.nodes.card < fuel) :
    ∃ linked it', iterate .outOfFuel (Lattice.searchStep body) fuel (l₀, it) = .ok
    (linkAll link l₀ linked, it') ∧
      linked.Nodup ∧ (∀ v ∈ linked, v ∈ G.nodes ∧ wanted v) ∧
      ∀ v ∈ G.nodes, wanted v → ∃ m ∈ linked, Relation.ReflTransGen G.Edge m v := by
  have hloop : ∃ s k, iterate .outOfFuel (Lattice.searchStep body) fuel (l₀, it) = .ok s ∧
      (∃ linked visited, visited.length + k = G.nodes.card ∧
        Searching G isForward wanted link l₀ linked visited s) ∧ Lattice.searchStep body s = .ok none := by
    refine iterate_variant (fun k s => ∃ linked visited, visited.length + k = G.nodes.card ∧
      Searching G isForward wanted link l₀ linked visited s) ?_ ⟨[], [], Nat.zero_add _, hstart⟩ hfuel
    rintro k s ⟨linked, visited, hk, h⟩
    cases hend : s.2.isEnd with
    | true =>
        refine ⟨none, ?_, fun s' hs' => nomatch hs'⟩
        unfold Lattice.searchStep
        rw [hend, if_pos rfl]
    | false =>
        obtain ⟨s', linked', hs', h'⟩ := h.step hext hhit hmiss hend
        have hlt := (h.going hend).2.2.2
        refine ⟨some s', hs', ?_⟩
        rintro t ⟨rfl⟩
        refine ⟨k - 1, by omega, linked', _, ?_, h'⟩
        rw [List.length_append, List.length_singleton]
        omega
  obtain ⟨⟨l, it'⟩, k, hs, ⟨linked, visited, _, h⟩, hlast⟩ := hloop
  obtain rfl : l = linkAll link l₀ linked := h.lattice
  refine ⟨linked, it', hs, h.linked.nodup, fun v hv => ⟨(h.linked.mem v hv).1, (h.linked.mem v hv).2.1⟩, ?_⟩
  intro v hv hw
  cases hend : it'.isEnd with
  | true =>
      by_cases hdead : Pruned it'.degrees v
      · exact (h.linked.pruned v).1 hdead
      · exact (h.linked.pruned v).1 (h.linked.done v (h.finished hend v hv hdead) hw)
  | false =>
      obtain ⟨s', _, hs', _⟩ := h.step hext hhit hmiss hend
      rw [hlast] at hs'
      cases hs'

/-! ### The loop over all nodes -/

/-- The loop over all nodes that are ready in turn lists each of them once. -/
theorem visited_eq_ok (hstart : Searching G isForward (fun _ => False) link l [] [] (l, it))
    (hbound : ∀ v ∈ G.nodes, v < l.values.length) :
    ∃ ns, l.visited it = .ok ns ∧ ns.Nodup ∧ (∀ v, v ∈ ns ↔ v ∈ G.nodes) ∧
      ns.Pairwise fun u v => ¬ Relation.TransGen G.Edge v u := by
  have hcard : G.nodes.card < l.values.length + 1 := by
    have hle := Finset.card_le_card fun v hv => Finset.mem_range.2 (hbound v hv)
    rw [Finset.card_range] at hle
    exact Nat.lt_succ_of_le hle
  have hloop : ∃ s, iterate .outOfFuel l.visitStep (l.values.length + 1) (it, []) = .ok s ∧
      Searching G isForward (fun _ => False) link l [] s.2 (l, s.1) ∧ l.visitStep s = .ok none := by
    refine iterate_total
      (fun s : LatticeIterator × List ℕ => Searching G isForward (fun _ => False) link l [] s.2 (l, s.1))
      (fun s => G.nodes.card - s.2.length) ?_ hstart (by simpa using hcard)
    rintro ⟨it, ns⟩ h
    unfold Lattice.visitStep
    cases hend : it.isEnd with
    | true =>
        rw [if_pos rfl]
        exact ⟨none, rfl, fun s' hs' => nomatch hs'⟩
    | false =>
        obtain ⟨hiter, _, _, hlt⟩ := h.going hend
        rw [if_neg Bool.false_ne_true]
        refine ⟨_, rfl, ?_⟩
        rintro s' ⟨rfl⟩
        dsimp only at hiter hlt ⊢
        refine ⟨Searching.advance hiter rfl h.forward (h.linked.skip id), ?_⟩
        rw [List.length_append, List.length_singleton]
        omega
  obtain ⟨⟨it', ns⟩, hs, h, hlast⟩ := hloop
  have hend : it'.isEnd = true := by
    unfold Lattice.visitStep at hlast
    by_contra hend
    rw [if_neg hend] at hlast
    cases hlast
  refine ⟨ns, ?_, h.nodup, fun v => ⟨h.mem v, fun hv => ?_⟩, h.order⟩
  · unfold Lattice.visited
    rw [hs]
    rfl
  · apply h.finished hend v hv
    rw [h.linked.pruned]
    exact fun ⟨_, hm, _⟩ => List.not_mem_nil hm

end Cpf.Utilities
