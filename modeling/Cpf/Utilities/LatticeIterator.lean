import Cpf.Basics.Topological
import Cpf.Utilities.Lattice

/-!
# The iterator of the lattice

An iterator visits a graph that `insert` changes under way. `Agrees` compares the lattice with the graph
at the beginning: new links lead to nodes that are pruned, and no other node has its links counted anew.
Then `operator++` is a step of a topological visit, and `prune` gives up a node with everything behind it.
-/

namespace Cpf.Utilities

variable {α : Type} {G : Dag ℕ} {l : Lattice α} {degrees degrees' : ℕ → Option Degree} {n : ℕ}

def Pruned (degrees : ℕ → Option Degree) (v : ℕ) : Prop := degrees v = some .infinite

/-- The links to a node that were not counted. -/
def leftOver (G : Dag ℕ) (degrees : ℕ → Option Degree) (v : ℕ) : ℕ :=
  match degrees v with
  | none => (G.ins v).card
  | some (.finite d) => d
  | some .infinite => 0

theorem leftOver_update_self {d : ℕ} :
    leftOver G (Function.update degrees n (some (.finite d))) n = d := by
  unfold leftOver
  rw [Function.update_self]

theorem leftOver_update_of_ne {d : Option Degree} {v : ℕ} (h : v ≠ n) :
    leftOver G (Function.update degrees n d) v = leftOver G degrees v := by
  unfold leftOver
  rw [Function.update_of_ne h]

/-- What the lattice has in common with the graph. -/
structure Agrees (G : Dag ℕ) (l : Lattice α) (isForward : Bool) (degrees : ℕ → Option Degree) : Prop where
  bound : ∀ v ∈ G.nodes, v < l.values.length
  nodup : ∀ n, (G.out n).Nodup
  out : ∀ n ∈ G.nodes, ∃ extra, l.out isForward n = extra ++ G.out n ∧ ∀ v ∈ extra, Pruned degrees v
  numIn : ∀ v ∈ G.nodes, degrees v = none → l.numIn isForward v = (G.ins v).card

/-! ### `operator++` -/

theorem popNext_eq_none_iff {fringe : List ℕ} :
    popNext degrees fringe = none ↔ ∀ v ∈ fringe, Pruned degrees v := by
  induction fringe with
  | nil => simp [popNext]
  | cons v fringe ih =>
      rw [popNext, List.forall_mem_cons]
      by_cases hv : degrees v = some .infinite
      · rw [if_pos hv, ih]
        exact ⟨fun h => ⟨hv, h⟩, fun h => h.2⟩
      · rw [if_neg hv]
        exact iff_of_false (Option.some_ne_none _) fun h => hv h.1

theorem popNext_eq_some {fringe rest : List ℕ} (h : popNext degrees fringe = some (n, rest)) :
    ¬ Pruned degrees n ∧ ∃ front, fringe = front ++ n :: rest ∧ ∀ v ∈ front, Pruned degrees v := by
  induction fringe with
  | nil => cases h
  | cons v fringe ih =>
      rw [popNext] at h
      by_cases hv : degrees v = some .infinite
      · rw [if_pos hv] at h
        obtain ⟨hn, front, rfl, hfront⟩ := ih h
        exact ⟨hn, v :: front, rfl, List.forall_mem_cons.2 ⟨hv, hfront⟩⟩
      · rw [if_neg hv] at h
        cases h
        exact ⟨hv, [], rfl, fun w hw => absurd hw List.not_mem_nil⟩

/-- A link to a pruned node changes nothing. -/
theorem countLink_of_pruned {numIn : ℕ → ℕ} {s : FringeState} (h : Pruned s.2 n) :
    countLink numIn s n = s := by
  unfold Pruned at h
  unfold countLink
  rw [h]
  rfl

theorem countLink_of_not_pruned {numIn : ℕ → ℕ} {s : FringeState} (h : ¬ Pruned s.2 n)
    (hnum : s.2 n = none → numIn n = (G.ins n).card) :
    countLink numIn s n = (if leftOver G s.2 n = 1 then n :: s.1 else s.1,
      Function.update s.2 n (some (.finite (leftOver G s.2 n - 1)))) := by
  unfold Pruned at h
  unfold countLink leftOver
  cases hn : s.2 n with
  | none => rw [Option.getD_none, hnum hn]
  | some d =>
      cases d with
      | finite d => rfl
      | infinite => exact absurd hn h

theorem foldl_countLink {numIn : ℕ → ℕ} {ns : List ℕ} (hnodup : ns.Nodup) {s s' : FringeState}
    (hnum : ∀ v ∈ ns, s.2 v = none → numIn v = (G.ins v).card)
    (hs : ns.foldl (countLink numIn) s = s') :
    (∀ v, Pruned s'.2 v ↔ Pruned s.2 v) ∧ (∀ v, s'.2 v = none → s.2 v = none) ∧
    (∀ v, ¬ Pruned s.2 v → leftOver G s'.2 v = leftOver G s.2 v - if v ∈ ns then 1 else 0) ∧
    ∃ new, s'.1 = new ++ s.1 ∧ new.Nodup ∧
      ∀ v, v ∈ new ↔ v ∈ ns ∧ ¬ Pruned s.2 v ∧ leftOver G s.2 v = 1 := by
  induction ns generalizing s with
  | nil =>
      cases hs
      refine ⟨fun _ => Iff.rfl, fun _ => id, fun v _ => ?_, [], rfl, List.nodup_nil, fun v => ?_⟩
      · rw [if_neg List.not_mem_nil, List.foldl_nil]
        rfl
      · exact iff_of_false List.not_mem_nil fun h => List.not_mem_nil h.1
  | cons n ns ih =>
      obtain ⟨hnot, hnodup⟩ := List.nodup_cons.1 hnodup
      rw [List.foldl_cons] at hs
      by_cases hn : Pruned s.2 n
      · rw [countLink_of_pruned hn] at hs
        obtain ⟨hpruned, hnone, hleft, new, hnew, hnewnodup, hmem⟩ :=
          ih hnodup (fun v hv => hnum v (List.mem_cons_of_mem _ hv)) hs
        refine ⟨hpruned, hnone, fun v hv => ?_, new, hnew, hnewnodup, fun v => ?_⟩
        · have hne : v ≠ n := fun heq => hv (heq ▸ hn)
          rw [hleft v hv]
          simp [hne]
        · rw [hmem, List.mem_cons]
          constructor
          · exact fun h => ⟨Or.inr h.1, h.2⟩
          · rintro ⟨rfl | hv, hrest⟩
            · exact absurd hn hrest.1
            · exact ⟨hv, hrest⟩
      · rw [countLink_of_not_pruned hn (hnum n List.mem_cons_self)] at hs
        have hother : ∀ v, v ≠ n → Function.update s.2 n (some (.finite (leftOver G s.2 n - 1))) v = s.2 v :=
          fun v hv => Function.update_of_ne hv _ _
        have hself : Function.update s.2 n (some (.finite (leftOver G s.2 n - 1))) n =
            some (.finite (leftOver G s.2 n - 1)) := Function.update_self _ _ _
        have hprunedStep : ∀ v,
            Pruned (Function.update s.2 n (some (.finite (leftOver G s.2 n - 1)))) v ↔ Pruned s.2 v := by
          intro v
          by_cases hv : v = n
          · rw [hv]
            refine iff_of_false (fun h => ?_) hn
            unfold Pruned at h
            rw [hself] at h
            cases h
          · unfold Pruned
            rw [hother v hv]
        obtain ⟨hpruned, hnone, hleft, new, hnew, hnewnodup, hmem⟩ := ih hnodup (fun v hv hvnone => by
          have hne : v ≠ n := fun heq => hnot (heq ▸ hv)
          dsimp only at hvnone
          rw [hother v hne] at hvnone
          exact hnum v (List.mem_cons_of_mem _ hv) hvnone) hs
        dsimp only at hpruned hnone hleft hnew hmem
        refine ⟨fun v => (hpruned v).trans (hprunedStep v), fun v hv => ?_, fun v hv => ?_, ?_⟩
        · have hstep := hnone v hv
          by_cases hvn : v = n
          · rw [hvn, hself] at hstep
            cases hstep
          · rwa [hother v hvn] at hstep
        · rw [hleft v (mt (hprunedStep v).1 hv)]
          by_cases hvn : v = n
          · rw [hvn, if_neg hnot, if_pos List.mem_cons_self, Nat.sub_zero]
            exact leftOver_update_self
          · rw [leftOver_update_of_ne hvn]
            simp [hvn]
        · by_cases hone : leftOver G s.2 n = 1
          · rw [if_pos hone] at hnew
            refine ⟨new ++ [n], by simp [hnew], ?_, fun v => ?_⟩
            · rw [List.nodup_append]
              refine ⟨hnewnodup, List.nodup_singleton n, fun u hu v hv huv => ?_⟩
              rw [List.mem_singleton.1 hv] at huv
              exact hnot (huv ▸ ((hmem u).1 hu).1)
            · rw [List.mem_append, List.mem_singleton, hmem, List.mem_cons]
              by_cases hvn : v = n
              · rw [hvn]
                exact iff_of_true (Or.inr rfl) ⟨Or.inl rfl, hn, hone⟩
              · rw [hprunedStep, leftOver_update_of_ne hvn]
                simp [hvn]
          · rw [if_neg hone] at hnew
            refine ⟨new, hnew, hnewnodup, fun v => ?_⟩
            rw [hmem, List.mem_cons]
            by_cases hvn : v = n
            · rw [hvn]
              exact iff_of_false (fun h => hnot h.1) fun h => hone h.2.2
            · rw [hprunedStep, leftOver_update_of_ne hvn]
              simp [hvn]

/-- The links to pruned nodes at the front of a node's links do not count. -/
theorem foldl_countLink_of_pruned {numIn : ℕ → ℕ} {ns : List ℕ} {s : FringeState}
    (h : ∀ v ∈ ns, Pruned s.2 v) : ns.foldl (countLink numIn) s = s := by
  induction ns with
  | nil => rfl
  | cons n ns ih =>
      rw [List.foldl_cons, countLink_of_pruned (h n List.mem_cons_self)]
      exact ih fun v hv => h v (List.mem_cons_of_mem _ hv)

/-- An iterator under way. It has listed the nodes of `visited`. -/
structure Iterates (G : Dag ℕ) (l : Lattice α) (it : LatticeIterator) (visited : List ℕ) : Prop where
  agrees : Agrees G l it.isForward it.degrees
  visit : Dag.Visit G visited it.fringe (Pruned it.degrees) (leftOver G it.degrees)

variable {it : LatticeIterator} {visited : List ℕ}

theorem advance_isForward : (it.advance l).isForward = it.isForward := by
  unfold LatticeIterator.advance
  cases popNext it.degrees it.fringe <;> rfl

/-- `operator++` finds no node when all nodes that were not pruned are visited. -/
theorem Iterates.advance_isEnd (h : Iterates G l it visited) (hend : (it.advance l).isEnd = true) :
    ∀ v ∈ G.nodes, ¬ Pruned it.degrees v → v ∈ visited := by
  apply h.visit.finished
  unfold LatticeIterator.advance at hend
  cases hpop : popNext it.degrees it.fringe with
  | none => exact popNext_eq_none_iff.1 hpop
  | some p =>
      rw [hpop] at hend
      cases hend

theorem advance_degrees_of_isEnd (hend : (it.advance l).isEnd = true) :
    (it.advance l).degrees = it.degrees := by
  unfold LatticeIterator.advance at hend ⊢
  cases hpop : popNext it.degrees it.fringe with
  | none => rfl
  | some p =>
      rw [hpop] at hend
      cases hend

/-- Otherwise it goes on to a node that is ready. -/
theorem Iterates.advance (h : Iterates G l it visited) (hend : (it.advance l).isEnd = false) :
    Iterates G l (it.advance l) (visited ++ [(it.advance l).next]) ∧
      (it.advance l).next ∈ G.nodes ∧ (it.advance l).next ∉ visited ∧
      ¬ Pruned it.degrees (it.advance l).next ∧
      (∀ v, Pruned (it.advance l).degrees v ↔ Pruned it.degrees v) ∧
      ∀ v, (it.advance l).degrees v = none → it.degrees v = none := by
  unfold LatticeIterator.advance at hend ⊢
  cases hpop : popNext it.degrees it.fringe with
  | none =>
      rw [hpop] at hend
      cases hend
  | some p =>
      obtain ⟨n, rest⟩ := p
      dsimp only
      obtain ⟨hn, front, hfringe, hfront⟩ := popNext_eq_some hpop
      have hvisit := h.visit
      rw [hfringe] at hvisit
      obtain ⟨hnode, hfresh⟩ := hvisit.fringe_mem n (List.mem_append_right _ List.mem_cons_self)
      obtain ⟨extra, hout, hextra⟩ := h.agrees.out n hnode
      rw [hout, List.foldl_append, foldl_countLink_of_pruned (s := (rest, it.degrees)) hextra]
      generalize hs : (G.out n).foldl (countLink (l.numIn it.isForward)) (rest, it.degrees) = s'
      obtain ⟨hpruned, hnone, hleft, new, hnew, hnewnodup, hmem⟩ :=
        foldl_countLink (G := G) (h.agrees.nodup n)
          (fun v hv hvnone => h.agrees.numIn v (G.out_mem n v hv).2 hvnone) hs
      dsimp only at hpruned hnone hleft hnew hmem
      have hdead : Pruned s'.2 = Pruned it.degrees := funext fun v => propext (hpruned v)
      refine ⟨⟨⟨h.agrees.bound, h.agrees.nodup, fun u hu => ?_, fun v hv hvnone => ?_⟩, ?_⟩, hnode, hfresh, hn,
        hpruned, hnone⟩
      · obtain ⟨extra, hout, hextra⟩ := h.agrees.out u hu
        exact ⟨extra, hout, fun v hv => (hpruned v).2 (hextra v hv)⟩
      · exact h.agrees.numIn v hv (hnone v hvnone)
      · dsimp only
        rw [hnew, hdead]
        exact hvisit.next hfront hn hleft hnewnodup hmem

theorem Iterates.start {isForward : Bool} {roots : List ℕ} {isEnd : Bool} {next : ℕ}
    (hagrees : Agrees G l isForward fun _ => none) (hnodup : roots.Nodup)
    (hroots : ∀ v, v ∈ roots ↔ v ∈ G.nodes ∧ G.ins v = ∅) :
    Iterates G l ⟨isForward, isEnd, next, roots, fun _ => none⟩ [] where
  agrees := hagrees
  visit := by
    have hdead : Pruned (fun _ => none) = fun _ => False := by
      funext v
      exact propext ⟨fun h => Option.some_ne_none _ h.symm, False.elim⟩
    rw [hdead]
    exact Dag.Visit.start hnodup hroots fun v _ => rfl

/-! ### `prune` -/

/-- The work that is left for the loop in `prune`: the nodes on the fringe, and for each node that it has
not reached a visit and its links. -/
def pruneLeft (out : ℕ → List ℕ) (size : ℕ) (s : FringeState) : ℕ :=
  s.1.length + ∑ v ∈ (Finset.range size).filter fun v => s.2 v ≠ some .infinite, ((out v).length + 1)

theorem pruneLeft_lt_pruneFuel (isForward : Bool) :
    pruneLeft (l.out isForward) l.values.length ([n], degrees) < pruneFuel l isForward := by
  have hsum : pruneFuel l isForward =
      (∑ v ∈ Finset.range l.values.length, ((l.out isForward v).length + 1)) + 2 := rfl
  have hle := Finset.sum_le_sum_of_subset (f := fun v => (l.out isForward v).length + 1)
    (Finset.filter_subset (fun v => degrees v ≠ some .infinite) (Finset.range l.values.length))
  rw [hsum, pruneLeft, List.length_singleton]
  dsimp only at hle ⊢
  omega

/-- The loop in `prune` under way, with the degrees from before. -/
structure PruneLoop (G : Dag ℕ) (degrees : ℕ → Option Degree) (n : ℕ) (s : FringeState) : Prop where
  keeps : ∀ v, Pruned degrees v → Pruned s.2 v
  same : ∀ v, ¬ Pruned s.2 v → s.2 v = degrees v
  reached : ∀ v, Pruned s.2 v ∨ v ∈ s.1 → Pruned degrees v ∨ Relation.ReflTransGen G.Edge n v
  first : Pruned s.2 n ∨ n ∈ s.1
  closed : ∀ u v, Pruned s.2 u → v ∈ G.out u → Pruned s.2 v ∨ v ∈ s.1

theorem pruned_update {d : Option Degree} {v : ℕ} (h : v ≠ n) :
    Pruned (Function.update degrees n d) v ↔ Pruned degrees v := by
  unfold Pruned
  rw [Function.update_of_ne h]

/-- Every node that can be reached lies in the graph. -/
theorem mem_nodes_of_reached {v : ℕ} (hn : n ∈ G.nodes) (h : Relation.ReflTransGen G.Edge n v) :
    v ∈ G.nodes := by
  rcases h.cases_tail with heq | ⟨u, _, hedge⟩
  · exact heq ▸ hn
  · exact (G.out_mem u v hedge).2

theorem PruneLoop.step {out : ℕ → List ℕ} {size : ℕ} {s : FringeState} (hn : n ∈ G.nodes)
    (hbound : ∀ v ∈ G.nodes, v < size)
    (hout : ∀ u ∈ G.nodes, ∃ extra, out u = extra ++ G.out u ∧ ∀ v ∈ extra, Pruned degrees v ∨ v = n)
    (h : PruneLoop G degrees n s) :
    ∃ r, pruneStep out s = .ok r ∧ ∀ s', r = some s' →
      PruneLoop G degrees n s' ∧ pruneLeft out size s' < pruneLeft out size s := by
  obtain ⟨fringe, d⟩ := s
  cases fringe with
  | nil => exact ⟨none, rfl, fun s' hs' => nomatch hs'⟩
  | cons m fringe =>
      unfold pruneStep
      dsimp only
      by_cases hm : d m = some .infinite
      · rw [if_pos hm]
        refine ⟨_, rfl, ?_⟩
        rintro s' ⟨rfl⟩
        refine ⟨⟨h.keeps, h.same, fun v hv => ?_, ?_, fun u v hu hv => ?_⟩, ?_⟩
        · exact h.reached v (hv.imp id (List.mem_cons_of_mem _))
        · rcases h.first with hfirst | hfirst
          · exact Or.inl hfirst
          · rcases List.mem_cons.1 hfirst with heq | hfirst
            · exact Or.inl (heq ▸ hm)
            · exact Or.inr hfirst
        · rcases h.closed u v hu hv with hv | hv
          · exact Or.inl hv
          · rcases List.mem_cons.1 hv with heq | hv
            · exact Or.inl (heq ▸ hm)
            · exact Or.inr hv
        · unfold pruneLeft
          rw [List.length_cons]
          dsimp only
          omega
      · rw [if_neg hm]
        have hreach : Relation.ReflTransGen G.Edge n m := by
          rcases h.reached m (Or.inr List.mem_cons_self) with hpruned | hreach
          · exact absurd (h.keeps m hpruned) hm
          · exact hreach
        have hnode := mem_nodes_of_reached hn hreach
        obtain ⟨extra, houtm, hextra⟩ := hout m hnode
        have hself : Pruned (Function.update d m (some .infinite)) m := Function.update_self _ _ _
        have hstep : ∀ v, Pruned d v → Pruned (Function.update d m (some .infinite)) v := by
          intro v hv
          by_cases hvm : v = m
          · exact hvm ▸ hself
          · exact (pruned_update hvm).2 hv
        refine ⟨_, rfl, ?_⟩
        rintro s' ⟨rfl⟩
        refine ⟨⟨fun v hv => hstep v (h.keeps v hv), fun v hv => ?_, fun v hv => ?_, ?_,
          fun u v hu hv => ?_⟩, ?_⟩
        · have hvm : v ≠ m := fun heq => hv (heq ▸ hself)
          dsimp only at hv ⊢
          rw [Function.update_of_ne hvm]
          exact h.same v (mt (pruned_update hvm).2 hv)
        · by_cases hvm : v = m
          · exact Or.inr (hvm ▸ hreach)
          · rw [pruned_update hvm] at hv
            rcases hv with hv | hv
            · exact h.reached v (Or.inl hv)
            · rcases List.mem_append.1 hv with hv | hv
              · rw [houtm] at hv
                rcases List.mem_append.1 hv with hv | hv
                · rcases hextra v hv with hv | hv
                  · exact Or.inl hv
                  · exact Or.inr (hv ▸ Relation.ReflTransGen.refl)
                · exact Or.inr (hreach.tail hv)
              · exact h.reached v (Or.inr (List.mem_cons_of_mem _ hv))
        · rcases h.first with hfirst | hfirst
          · exact Or.inl (hstep n hfirst)
          · rcases List.mem_cons.1 hfirst with heq | hfirst
            · exact Or.inl (heq ▸ hself)
            · exact Or.inr (List.mem_append_right _ hfirst)
        · by_cases hum : u = m
          · rw [hum] at hv
            right
            rw [houtm]
            exact List.mem_append_left _ (List.mem_append_right _ hv)
          · rcases h.closed u v ((pruned_update hum).1 hu) hv with hv | hv
            · exact Or.inl (hstep v hv)
            · rcases List.mem_cons.1 hv with heq | hv
              · exact Or.inl (heq ▸ hself)
              · exact Or.inr (List.mem_append_right _ hv)
        · unfold pruneLeft
          have hmem : m ∈ (Finset.range size).filter fun v => d v ≠ some .infinite :=
            Finset.mem_filter.2 ⟨Finset.mem_range.2 (hbound m hnode), hm⟩
          have herase : ((Finset.range size).filter fun v =>
              Function.update d m (some Degree.infinite) v ≠ some .infinite) =
              ((Finset.range size).filter fun v => d v ≠ some .infinite).erase m := by
            ext v
            by_cases hvm : v = m
            · simp [hvm]
            · simp [hvm, Function.update_of_ne]
          have hsum := Finset.add_sum_erase _ (fun v => (out v).length + 1) hmem
          dsimp only at hsum ⊢
          rw [herase, List.length_append, List.length_cons]
          omega

theorem prune_eq_ok (it : LatticeIterator) (hn : n ∈ G.nodes) (hbound : ∀ v ∈ G.nodes, v < l.values.length)
    (hout : ∀ u ∈ G.nodes, ∃ extra, l.out it.isForward u = extra ++ G.out u ∧
      ∀ v ∈ extra, Pruned it.degrees v ∨ v = n)
    (hclosed : ∀ u v, Pruned it.degrees u → v ∈ G.out u → Pruned it.degrees v) :
    ∃ degrees, it.prune l n = .ok { it with degrees := degrees } ∧
      (∀ v, Pruned degrees v ↔ Pruned it.degrees v ∨ Relation.ReflTransGen G.Edge n v) ∧
      ∀ v, ¬ Pruned degrees v → degrees v = it.degrees v := by
  have hstart : PruneLoop G it.degrees n ([n], it.degrees) :=
    ⟨fun _ => id, fun _ _ => rfl,
      fun v hv => hv.imp id fun hv => by rw [List.mem_singleton.1 hv],
      Or.inr (List.mem_singleton_self n), fun u v hu hv => Or.inl (hclosed u v hu hv)⟩
  have hloop : ∃ s, iterate .outOfFuel (pruneStep (l.out it.isForward)) (pruneFuel l it.isForward)
      ([n], it.degrees) = .ok s ∧ PruneLoop G it.degrees n s ∧ pruneStep (l.out it.isForward) s = .ok none :=
    iterate_total (PruneLoop G it.degrees n) (pruneLeft (l.out it.isForward) l.values.length)
      (fun s hs => hs.step hn hbound hout) hstart (pruneLeft_lt_pruneFuel it.isForward)
  obtain ⟨s, hs, h, hend⟩ := hloop
  have hempty : s.1 = [] := by
    unfold pruneStep at hend
    split at hend
    · assumption
    · split at hend <;> cases hend
  refine ⟨s.2, ?_, fun v => ⟨fun hv => h.reached v (Or.inl hv), ?_⟩, h.same⟩
  · unfold LatticeIterator.prune
    rw [hs]
    rfl
  · have hclosed' : ∀ u v, Pruned s.2 u → v ∈ G.out u → Pruned s.2 v := by
      intro u v hu hv
      rcases h.closed u v hu hv with hv | hv
      · exact hv
      · rw [hempty] at hv
        exact absurd hv List.not_mem_nil
    rintro (hv | hv)
    · exact h.keeps v hv
    · induction hv with
      | refl =>
          rcases h.first with hfirst | hfirst
          · exact hfirst
          · rw [hempty] at hfirst
            exact absurd hfirst List.not_mem_nil
      | tail _ hedge ih => exact hclosed' _ _ ih hedge

end Cpf.Utilities
