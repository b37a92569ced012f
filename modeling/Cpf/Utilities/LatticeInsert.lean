import Cpf.Utilities.LatticeLinks

/-!
# Insertions into the lattice

The loops of `insert` reach every node that they look for, so that there is a path between the new
element and every element that it compares with. The lattice then represents its order, and its iterators list
the elements in that order.
-/

namespace Cpf.Utilities

variable {α : Type} {order : LatticeOrder α} {l l' l₀ : Lattice α} {m new u v n : ℕ} {elt : α}

/-! ### The loops of `insert` -/

theorem Lattice.Wf.out_eq_nil {isForward : Bool} (h : l.Wf order m) (hu : l.values.length ≤ u) :
    l.out isForward u = [] := by
  rw [List.eq_nil_iff_forall_not_mem]
  intro v hv
  have hlt := (h.front_of_mem_out hv).lt.1
  omega

theorem compare_iff_below {a b : α} (hu : l.values[u]? = some a) (hv : l.values[v]? = some b) (hne : u ≠ v) :
    order.compare a b = true ↔ Below order l.values u v := by
  refine ⟨fun h => ⟨hne, a, b, hu, hv, h⟩, ?_⟩
  rintro ⟨_, a', b', ha', hb', h⟩
  rw [hu] at ha'
  rw [hv] at hb'
  cases ha'
  cases hb'
  exact h

/-- The first loop finds the nodes above the new one. -/
theorem searchForward_eq {i : LatticeIterator} (helt : l.values[new]? = some elt) (hn : n < l.values.length)
    (hne : new ≠ n) : (Below order l.values new n → l.searchForward order elt new i n = (do
      let i ← i.prune (linkForward new l n) n
      return (linkForward new l n, i))) ∧
    (¬ Below order l.values new n → l.searchForward order elt new i n = .ok (l, i)) := by
  have hvalue : l.values[n]? = some l.values[n] := List.getElem?_eq_getElem hn
  rw [← compare_iff_below helt hvalue hne]
  unfold Lattice.searchForward
  rw [hvalue]
  dsimp only
  constructor
  · intro hcompare
    rw [if_pos hcompare]
    rfl
  · intro hcompare
    rw [if_neg hcompare]

/-- The second loop finds the nodes below the new one, and the new one itself. -/
theorem searchReverse_eq {i : LatticeIterator} (hnodup : l.values.Nodup) (helt : l.values[new]? = some elt)
    (hn : n < l.values.length) :
    (n = new ∨ Below order l.values n new → l.searchReverse order elt new i n = (do
      let i ← i.prune (linkReverse new l n) n
      return (linkReverse new l n, i))) ∧
    (¬ (n = new ∨ Below order l.values n new) → l.searchReverse order elt new i n = .ok (l, i)) := by
  have hvalue : l.values[n]? = some l.values[n] := List.getElem?_eq_getElem hn
  unfold Lattice.searchReverse linkReverse
  rw [hvalue]
  dsimp only
  by_cases hne : n = new
  · rw [if_pos hne, if_pos hne]
    exact ⟨fun _ => rfl, fun h => absurd (Or.inl hne) h⟩
  · rw [if_neg hne, if_neg hne]
    have hiff : order.compare l.values[n] elt = true ∧ ¬ order.compare elt l.values[n] = true ↔
        n = new ∨ Below order l.values n new := by
      rw [compare_iff_below hvalue helt hne, compare_iff_below helt hvalue (Ne.symm hne)]
      exact ⟨fun h => Or.inr h.1, fun h => ⟨h.resolve_left hne, (h.resolve_left hne).asymm hnodup⟩⟩
    rw [← hiff]
    constructor
    · intro hcompare
      rw [if_pos hcompare]
    · intro hcompare
      rw [if_neg hcompare]

/-- After the first loop there are paths from the new node to all nodes above it. -/
theorem insert_forward (h : l.Wf order new) (hlength : l.values.length = new + 1)
    (helt : l.values[new]? = some elt) (hsuccs : l.succs new = []) (hpreds : l.preds new = []) :
    ∃ l' it, iterate .outOfFuel (Lattice.searchStep (Lattice.searchForward order elt new))
        (l.values.length + 1) (l, l.begin) = .ok (l', it) ∧
      l'.Wf order new ∧ l'.values = l.values ∧ l'.preds new = [] ∧ (∀ u v, l.Succ u v → l'.Succ u v) ∧
      ∀ v, Below order l.values new v → Relation.TransGen l'.Succ new v := by
  have hnew : ∀ u, new ≤ u → l.out true u = [] := by
    intro u hu
    rcases Nat.eq_or_lt_of_le hu with rfl | hlt
    · exact hsuccs
    · exact h.out_eq_nil (by omega)
  have hnodes : ∀ v ∈ (h.dag true hnew).nodes, v < l.values.length ∧ v ≠ new := by
    intro v hv
    obtain ⟨hlt, hv⟩ := Lattice.Wf.mem_nodes.1 hv
    refine ⟨hlt, ?_⟩
    rintro rfl
    rcases hv with hv | hv
    · exact lt_irrefl v hv
    · exact hv (by rw [Lattice.numIn, if_pos rfl, hpreds, List.length_nil])
  have hext : Extends (h.dag true hnew) true (linkForward new) l :=
    ⟨fun n => Lattice.Wf.dag_out_nodup,
      fun linked v hv => by
        rw [linkAll_linkForward_values]
        exact (hnodes v hv).1,
      fun linked u hu => ⟨[], linkAll_linkForward_succs (hnodes u hu).2,
        fun v hv => absurd hv List.not_mem_nil⟩,
      fun linked v _ hlinked => by
        rw [h.card_ins, Lattice.numIn, if_pos rfl, linkAll_linkForward_preds hlinked, Lattice.numIn,
          if_pos rfl]⟩
  have hbody : ∀ linked i n, n ∈ (h.dag true hnew).nodes →
      (Below order l.values new n → (linkAll (linkForward new) l linked).searchForward order elt new i n = (do
        let i ← i.prune (linkForward new (linkAll (linkForward new) l linked) n) n
        return (linkForward new (linkAll (linkForward new) l linked) n, i))) ∧
      (¬ Below order l.values new n → (linkAll (linkForward new) l linked).searchForward order elt new i n =
        .ok (linkAll (linkForward new) l linked, i)) := by
    intro linked i n hn
    have hvalues : (linkAll (linkForward new) l linked).values = l.values := linkAll_linkForward_values
    rw [← hvalues]
    exact searchForward_eq (hvalues ▸ helt) (hvalues ▸ (hnodes n hn).1) (Ne.symm (hnodes n hn).2)
  obtain ⟨linked, it, hloop, hnodup, hmem, hfound⟩ :=
    search_eq_ok hext (fun linked i n hn => (hbody linked i n hn).1)
    (fun linked i n hn => (hbody linked i n hn).2)
    (Searching.advance h.iterates_start rfl rfl Linked.start) Lattice.Wf.card_nodes_lt
  obtain ⟨hwf, hsucc⟩ := linkAll_linkForward h le_rfl hsuccs hnodup fun v hv => (hmem v hv).2
  refine ⟨_, it, hloop, hwf, linkAll_linkForward_values, ?_, fun u v huv => (hsucc u v).2 (Or.inl huv), ?_⟩
  · rw [linkAll_linkForward_preds fun hin => (hnodes new (hmem new hin).1).2 rfl, hpreds]
  · intro v hv
    have hnode : v ∈ (h.dag true hnew).nodes := by
      have hlt := hv.right_lt
      have hne := hv.1
      exact Lattice.Wf.mem_nodes.2 ⟨hlt, Or.inl (by omega)⟩
    obtain ⟨w, hw, hreach⟩ := hfound v hnode hv
    have hpath : Relation.ReflTransGen (linkAll (linkForward new) l linked).Succ w v :=
      Relation.ReflTransGen.mono (fun u v huv => (hsucc u v).2 (Or.inl huv)) _ _ hreach
    exact Relation.TransGen.head' ((hsucc new w).2 (Or.inr ⟨rfl, hw⟩)) hpath

/-- After the second loop there are paths to the new node from all nodes below it. -/
theorem insert_reverse (h : l.Wf order new) (hlength : l.values.length = new + 1)
    (helt : l.values[new]? = some elt) (hpreds : l.preds new = []) :
    ∃ l' it, iterate .outOfFuel (Lattice.searchStep (Lattice.searchReverse order elt new))
        (l.values.length + 1) (l, l.rbegin) = .ok (l', it) ∧
      l'.Wf order new ∧ l'.values = l.values ∧ (∀ u v, l.Succ u v → l'.Succ u v) ∧
      ∀ v, Below order l.values v new → Relation.TransGen l'.Succ v new := by
  have hnew : ∀ u, new ≤ u → l.out false u = [] := by
    intro u hu
    rcases Nat.eq_or_lt_of_le hu with rfl | hlt
    · exact hpreds
    · exact h.out_eq_nil (by omega)
  have hnodes : ∀ v ∈ (h.dag false hnew).nodes, v < l.values.length := fun v hv =>
    (Lattice.Wf.mem_nodes.1 hv).1
  have hext : Extends (h.dag false hnew) false (linkReverse new) l :=
    ⟨fun n => Lattice.Wf.dag_out_nodup,
      fun linked v hv => by
        rw [linkAll_linkReverse_values]
        exact hnodes v hv,
      fun linked u hu => by
        by_cases hne : u = new
        · rw [hne]
          exact linkAll_linkReverse_preds_self
        · exact ⟨[], linkAll_linkReverse_preds hne, fun v hv => absurd hv List.not_mem_nil⟩,
      fun linked v _ hlinked => by
        rw [h.card_ins, Lattice.numIn, if_neg Bool.false_ne_true, linkAll_linkReverse_succs hlinked,
          Lattice.numIn,
          if_neg Bool.false_ne_true]⟩
  have hbody : ∀ linked i n, n ∈ (h.dag false hnew).nodes →
      (n = new ∨ Below order l.values n new →
        (linkAll (linkReverse new) l linked).searchReverse order elt new i n = (do
          let i ← i.prune (linkReverse new (linkAll (linkReverse new) l linked) n) n
          return (linkReverse new (linkAll (linkReverse new) l linked) n, i))) ∧
      (¬ (n = new ∨ Below order l.values n new) →
        (linkAll (linkReverse new) l linked).searchReverse order elt new i n =
          .ok (linkAll (linkReverse new) l linked, i)) := by
    intro linked i n hn
    have hvalues : (linkAll (linkReverse new) l linked).values = l.values := linkAll_linkReverse_values
    rw [← hvalues]
    exact searchReverse_eq (hvalues ▸ h.nodup) (hvalues ▸ helt) (hvalues ▸ hnodes n hn)
  obtain ⟨linked, it, hloop, hnodup, hmem, hfound⟩ :=
    search_eq_ok hext (fun linked i n hn => (hbody linked i n hn).1)
    (fun linked i n hn => (hbody linked i n hn).2)
    (Searching.advance h.iterates_start rfl rfl Linked.start) Lattice.Wf.card_nodes_lt
  obtain ⟨hwf, hsucc⟩ := linkAll_linkReverse h le_rfl hpreds hnodup fun v hv => (hmem v hv).2
  refine ⟨_, it, hloop, hwf, linkAll_linkReverse_values, fun u v huv => (hsucc u v).2 (Or.inl huv), ?_⟩
  intro v hv
  have hlt : v < new := by
    have hlt := hv.left_lt
    have hne := hv.1
    omega
  obtain ⟨w, hw, hreach⟩ := hfound v (Lattice.Wf.mem_nodes.2 ⟨hv.left_lt, Or.inl hlt⟩) (Or.inr hv)
  -- nothing lies behind the new node
  have hne : w ≠ new := by
    rintro rfl
    rcases hreach.cases_head with heq | ⟨u, hedge, _⟩
    · omega
    · have hin : u ∈ l.out false w := hedge
      rw [hnew w le_rfl] at hin
      exact List.not_mem_nil hin
  have hpath : Relation.ReflTransGen (linkAll (linkReverse new) l linked).Succ v w := by
    rw [← Relation.reflTransGen_swap]
    exact Relation.ReflTransGen.mono (fun a b hab => (hsucc b a).2 (Or.inl ((h.mem_preds b a).1 hab))) _ _
      hreach
  exact Relation.TransGen.tail' hpath ((hsucc w new).2 (Or.inr ⟨rfl, hw, hne⟩))

/-! ### `insert` -/

variable {values : List α}

theorem below_concat_iff (elt : α) (hu : u < values.length) (hv : v < values.length) :
    Below order (values ++ [elt]) u v ↔ Below order values u v := by
  unfold Below
  rw [List.getElem?_append_left hu, List.getElem?_append_left hv]

theorem newNode_links (elt : α) (h : l.Wf order l.values.length) :
    (l.newNode elt).succs = l.succs ∧ (l.newNode elt).preds = l.preds := by
  unfold Lattice.newNode
  dsimp only
  have hsuccs : l.succs l.values.length = [] := (h.out_eq_nil le_rfl : l.out true l.values.length = [])
  have hpreds : l.preds l.values.length = [] := (h.out_eq_nil le_rfl : l.out false l.values.length = [])
  constructor
  · rw [← hsuccs, Function.update_eq_self]
  · rw [← hpreds, Function.update_eq_self]

theorem Lattice.Wf.newNode (h : l.Wf order l.values.length) (helt : elt ∉ l.values) :
    (l.newNode elt).Wf order l.values.length := by
  obtain ⟨hsuccs, hpreds⟩ := newNode_links elt h
  have hvalues : (l.newNode elt).values = l.values ++ [elt] := rfl
  refine ⟨?_, ?_, ?_, ?_, ?_, ?_, h.sources_nodup, h.sinks_nodup, ?_, ?_⟩
  · rw [hvalues, List.length_append]
    exact Nat.le_add_right _ _
  · rw [hvalues, List.nodup_append]
    refine ⟨h.nodup, List.nodup_singleton elt, fun a ha b hb hab => ?_⟩
    rw [List.mem_singleton.1 hb] at hab
    exact helt (hab ▸ ha)
  · rw [hsuccs]
    exact h.succs_nodup
  · rw [hpreds]
    exact h.preds_nodup
  · rw [hsuccs, hpreds]
    exact h.mem_preds
  · rw [hsuccs]
    intro u v huv
    have hbelow := h.below u v huv
    exact (below_concat_iff elt hbelow.left_lt hbelow.right_lt).2 hbelow
  · rw [hpreds]
    exact h.mem_sources
  · rw [hsuccs]
    exact h.mem_sinks

theorem mem_pushed {ends : List ℕ} {f : ℕ → List ℕ} (hends : ∀ v, v ∈ ends ↔ v < new ∧ f v = []) :
    (v ∈ if f new = [] then ends ++ [new] else ends) ↔ v < new + 1 ∧ f v = [] := by
  by_cases hnew : f new = []
  · rw [if_pos hnew, List.mem_append, List.mem_singleton, hends, Nat.lt_succ_iff_lt_or_eq]
    constructor
    · rintro (hv | rfl)
      · exact ⟨Or.inl hv.1, hv.2⟩
      · exact ⟨Or.inr rfl, hnew⟩
    · rintro ⟨hv | hv, hf⟩
      · exact Or.inl ⟨hv, hf⟩
      · exact Or.inr hv
  · rw [if_neg hnew, hends, Nat.lt_succ_iff_lt_or_eq]
    refine ⟨fun hv => ⟨Or.inl hv.1, hv.2⟩, ?_⟩
    rintro ⟨hv | rfl, hf⟩
    · exact ⟨hv, hf⟩
    · exact absurd hf hnew

theorem nodup_pushed {ends links : List ℕ} (hnodup : ends.Nodup) (hends : new ∉ ends) :
    (if links = [] then ends ++ [new] else ends).Nodup := by
  by_cases hlinks : links = []
  · rw [if_pos hlinks, List.nodup_append]
    refine ⟨hnodup, List.nodup_singleton new, fun u hu v hv huv => ?_⟩
    rw [List.mem_singleton.1 hv] at huv
    exact hends (huv ▸ hu)
  · rw [if_neg hlinks]
    exact hnodup

/-- In the end the new node can be an end as well. -/
theorem Lattice.Wf.pushEnds (h : l.Wf order new) (hlength : l.values.length = new + 1) :
    (l.pushEnds new).Wf order (new + 1) where
  le := hlength.ge
  nodup := h.nodup
  succs_nodup := h.succs_nodup
  preds_nodup := h.preds_nodup
  mem_preds := h.mem_preds
  below := h.below
  sources_nodup := nodup_pushed h.sources_nodup fun hin => lt_irrefl _ ((h.mem_sources new).1 hin).1
  sinks_nodup := nodup_pushed h.sinks_nodup fun hin => lt_irrefl _ ((h.mem_sinks new).1 hin).1
  mem_sources _ := mem_pushed h.mem_sources
  mem_sinks _ := mem_pushed h.mem_sinks

/-- The lattice is well formed, and a path leads from every element to the ones above it. -/
structure Lattice.Represents (order : LatticeOrder α) (l : Lattice α) : Prop where
  wf : l.Wf order l.values.length
  path : ∀ u v, Below order l.values u v → Relation.TransGen l.Succ u v

theorem Lattice.Represents.insert (h : l.Represents order) (helt : elt ∉ l.values) :
    ∃ l', l.insert order elt = .ok l' ∧ l'.Represents order ∧ l'.values = l.values ++ [elt] := by
  have hwf := h.wf.newNode helt
  have hlength : (l.newNode elt).values.length = l.values.length + 1 := List.length_append
  have hvalue : (l.newNode elt).values[l.values.length]? = some elt := by
    rw [Lattice.newNode, List.getElem?_concat_length]
  obtain ⟨l₁, it₁, hloop₁, hwf₁, hvalues₁, hpreds₁, hgrow₁, habove⟩ :=
    insert_forward hwf hlength hvalue (Function.update_self _ _ _) (Function.update_self _ _ _)
  rw [← hvalues₁] at hlength hvalue habove
  obtain ⟨l₂, it₂, hloop₂, hwf₂, hvalues₂, hgrow₂, hbelow⟩ := insert_reverse hwf₁ hlength hvalue hpreds₁
  rw [← hvalues₂] at hlength
  have hvalues : (l₂.pushEnds l.values.length).values = l.values ++ [elt] := hvalues₂.trans hvalues₁
  refine ⟨l₂.pushEnds l.values.length, ?_, ⟨?_, fun u v huv => ?_⟩, hvalues⟩
  · unfold Lattice.insert
    dsimp only
    rw [hloop₁]
    rw [hvalues₁] at hloop₂
    dsimp only [bind, Except.bind]
    rw [hloop₂]
    rfl
  · have hends := hwf₂.pushEnds hlength
    rwa [← hlength] at hends
  · have huv₂ : Below order l₂.values u v := huv
    have hgrow : ∀ u v, (l.newNode elt).Succ u v → l₂.Succ u v := fun u v huv => hgrow₂ u v (hgrow₁ u v huv)
    change Relation.TransGen l₂.Succ u v
    have hu := huv₂.left_lt
    have hv := huv₂.right_lt
    by_cases hunew : u = l.values.length
    · rw [hunew] at huv₂ ⊢
      rw [hvalues₂] at huv₂
      exact Relation.TransGen.mono hgrow₂ _ _ (habove v huv₂)
    · by_cases hvnew : v = l.values.length
      · rw [hvnew] at huv₂ ⊢
        rw [hvalues₂] at huv₂
        exact hbelow u huv₂
      · have hold : Below order l.values u v := by
          rw [← below_concat_iff elt (by omega) (by omega), ← hvalues]
          exact huv
        refine Relation.TransGen.mono (fun x y hxy => hgrow x y ?_) _ _ (h.path u v hold)
        rw [Lattice.Succ, (newNode_links elt h.wf).1]
        exact hxy

theorem empty_represents : (Lattice.empty : Lattice α).Represents order where
  wf := by
    refine ⟨Nat.le_refl _, List.nodup_nil, fun _ => List.nodup_nil, fun _ => List.nodup_nil,
      fun _ _ => iff_of_false List.not_mem_nil List.not_mem_nil,
      fun _ _ h => absurd h List.not_mem_nil, List.nodup_nil, List.nodup_nil, fun v => ?_, fun v => ?_⟩
    · exact iff_of_false List.not_mem_nil fun h => Nat.not_lt_zero v h.1
    · exact iff_of_false List.not_mem_nil fun h => Nat.not_lt_zero v h.1
  path u v h := absurd h.left_lt (Nat.not_lt_zero u)

theorem insertAll_eq_ok (order : LatticeOrder α) {elts : List α} (hnodup : elts.Nodup) :
    ∃ l, insertAll order elts = .ok l ∧ l.Represents order ∧ l.values = elts := by
  induction elts using List.reverseRecOn with
  | nil => exact ⟨.empty, rfl, empty_represents, rfl⟩
  | append_singleton elts elt ih =>
      obtain ⟨hbefore, _, hdistinct⟩ := List.nodup_append.1 hnodup
      obtain ⟨l, hl, hrep, rfl⟩ := ih hbefore
      obtain ⟨l', hl', hrep', hvalues⟩ := hrep.insert fun hin =>
        hdistinct elt hin elt (List.mem_singleton_self elt) rfl
      refine ⟨l', ?_, hrep', hvalues⟩
      unfold insertAll at hl ⊢
      rw [List.foldlM_append, hl]
      dsimp only [bind, Except.bind]
      rw [List.foldlM_cons, hl']
      rfl

/-! ### What the lattice says about its elements -/

namespace Lattice.Represents

theorem below_iff (h : l.Represents order) : Below order l.values u v ↔ Relation.TransGen l.Succ u v := by
  refine ⟨h.path u v, fun hpath => ?_⟩
  induction hpath with
  | single huv => exact h.wf.below _ _ huv
  | tail _ huv ih => exact ih.trans h.wf.nodup (h.wf.below _ _ huv)

theorem front_iff {isForward : Bool} (h : l.Represents order) :
    Lattice.Wf.Front order l.values isForward u v ↔
      Relation.TransGen (fun u v => v ∈ l.out isForward u) u v := by
  cases isForward with
  | true => exact h.below_iff
  | false =>
      rw [← Relation.transGen_swap]
      have heq : (Function.swap fun u v => v ∈ l.out false u) = l.Succ := by
        funext u v
        exact propext (h.wf.mem_preds u v)
      rw [heq]
      exact h.below_iff

theorem visited_eq_ok (h : l.Represents order) (isForward : Bool) :
    ∃ ns, l.visited (.start l (Lattice.Wf.roots l isForward) isForward) = .ok ns ∧
      ns.Perm (List.range l.values.length) ∧
      ns.Pairwise fun u v => ¬ Lattice.Wf.Front order l.values isForward v u := by
  have hnew : ∀ u, l.values.length ≤ u → l.out isForward u = [] := fun u hu => h.wf.out_eq_nil hu
  have hstart : Searching (h.wf.dag isForward hnew) isForward (fun _ => False) (fun l _ => l) l [] []
      (l, .start l (Lattice.Wf.roots l isForward) isForward) :=
    Searching.advance h.wf.iterates_start rfl rfl Linked.start
  obtain ⟨ns, hns, hnodup, hmem, horder⟩ :=
    Utilities.visited_eq_ok hstart fun v hv => (Lattice.Wf.mem_nodes.1 hv).1
  refine ⟨ns, hns, ?_, horder.imp fun huv => mt h.front_iff.1 huv⟩
  rw [List.perm_ext_iff_of_nodup hnodup List.nodup_range]
  intro v
  rw [hmem, Lattice.Wf.mem_nodes, List.mem_range]
  exact ⟨fun hv => hv.1, fun hv => ⟨hv, Or.inl hv⟩⟩

end Lattice.Represents

/-- After insertions of different elements, the order holds between two of them exactly when a path leads from
the one node to the other. The sources and sinks are the nodes without predecessors and successors, and the
iterators list all nodes once, none behind one above it and, in reverse, none behind one below it. -/
theorem lattice_represents_order (order : LatticeOrder α) (elts : List α) (hnodup : elts.Nodup) :
    ∃ l, insertAll order elts = .ok l ∧ l.values = elts ∧
      (∀ u v a b, u ≠ v → elts[u]? = some a → elts[v]? = some b →
        (order.compare a b = true ↔ Relation.TransGen (fun x y => y ∈ l.succs x) u v)) ∧
      (∀ u v, u ∈ l.preds v ↔ v ∈ l.succs u) ∧
      (l.sources.Nodup ∧ ∀ v, v ∈ l.sources ↔ v < elts.length ∧ l.preds v = []) ∧
      (l.sinks.Nodup ∧ ∀ v, v ∈ l.sinks ↔ v < elts.length ∧ l.succs v = []) ∧
      (∃ ns, l.visited l.begin = .ok ns ∧ ns.Perm (List.range elts.length) ∧
        ns.Pairwise fun u v => ¬ Below order elts v u) ∧
      ∃ ns, l.visited l.rbegin = .ok ns ∧ ns.Perm (List.range elts.length) ∧
        ns.Pairwise fun u v => ¬ Below order elts u v := by
  obtain ⟨l, hl, h, rfl⟩ := insertAll_eq_ok order hnodup
  refine ⟨l, hl, rfl, fun u v a b hne hu hv => ?_, h.wf.mem_preds, ⟨h.wf.sources_nodup, h.wf.mem_sources⟩,
    ⟨h.wf.sinks_nodup, h.wf.mem_sinks⟩, ?_, ?_⟩
  · rw [compare_iff_below hu hv hne]
    exact h.below_iff
  · exact h.visited_eq_ok true
  · exact h.visited_eq_ok false

def divisibility : LatticeOrder ℕ where
  compare a b := decide (a ∣ b)
  trans _ _ _ hab hbc := decide_eq_true (dvd_trans (of_decide_eq_true hab) (of_decide_eq_true hbc))
  antisymm _ _ hab hba := Nat.dvd_antisymm (of_decide_eq_true hab) (of_decide_eq_true hba)

/-- A lattice of numbers: a path leads from 2 to 12. -/
theorem lattice_of_divisibility : ∃ l, insertAll divisibility [6, 2, 12, 3] = .ok l ∧
    Relation.TransGen (fun x y => y ∈ l.succs x) 1 2 := by
  obtain ⟨l, hl, _, hpath, _⟩ := lattice_represents_order divisibility [6, 2, 12, 3] (by decide)
  exact ⟨l, hl, (hpath 1 2 2 12 (by decide) rfl rfl).1 (by decide)⟩

end Cpf.Utilities
